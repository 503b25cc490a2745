import UfsRedis.Keyspace.DictScan

/-!
# Iterating over a dict that does not change

Without changes between the calls, a full iteration with `dictScan` visits every bucket of both tables
once. The cursors are the numbers of the buckets of the smaller table, in reversed order of their
bits, and with a cursor that has no higher bits the loop over the larger table starts at its first
expansion.
-/

namespace UfsRedis.Keyspace

open List Lib

variable {K V : Type}

/-- Calls of `dictScan` from the cursor `v` on, until the next cursor is 0: their number, and the
buckets that were visited. -/
def scanAll (d : Dict K V) : Nat → BitVec 64 → Except Fault (Nat × List (Visit K V))
  | 0, _ => .error .noFuel
  | fuel + 1, v => do
    let (v, visits) ← dictScan d v
    if v = 0 then return (1, visits)
    let (calls, rest) ← scanAll d fuel v
    return (calls + 1, visits ++ rest)

/-- The number of buckets of the smaller table that is in use. -/
def Dict.liveBuckets (d : Dict K V) : Nat :=
  if d.isRehashing then min d.ht0.size d.ht1.size else d.ht0.size

variable {hash : K → BitVec 64} {d : Dict K V}

section

variable {ht : Dictht K V} {n n0 n1 : Nat}

/-! ## All buckets -/

theorem flatMap_bucket (ht : Dictht K V) :
    (range ht.buckets.length).flatMap ht.bucket = ht.entries := by
  have hmap : (range ht.buckets.length).map ht.bucket = ht.buckets := by
    refine ext_getElem (by simp) fun i hi hi' => ?_
    rw [getElem_map, getElem_range, Dictht.bucket, getElem?_eq_getElem hi']
    rfl
  rw [flatMap_def, hmap]
  rfl

theorem range_blocks_perm (a b : Nat) :
    ((range a).flatMap fun i => (range b).map fun j => i + a * j).Perm (range (a * b)) := by
  have hnodup : ((range a).flatMap fun i => (range b).map fun j => i + a * j).Nodup := by
    refine nodup_flatMap.mpr ⟨fun i hi => ?_, ?_⟩
    · have ha : 0 < a := Nat.zero_lt_of_lt (mem_range.mp hi)
      refine nodup_range.map fun j j' h => ?_
      exact Nat.eq_of_mul_eq_mul_left ha (Nat.add_left_cancel h)
    refine nodup_range.imp_of_mem fun {i i'} hi hi' hne => ?_
    intro x hx hx'
    obtain ⟨j, -, rfl⟩ := mem_map.mp hx
    obtain ⟨j', -, h⟩ := mem_map.mp hx'
    have hmod := congrArg (· % a) h
    simp only [Nat.add_mul_mod_self_left, Nat.mod_eq_of_lt (mem_range.mp hi),
      Nat.mod_eq_of_lt (mem_range.mp hi')] at hmod
    exact hne hmod.symm
  have hsub : ((range a).flatMap fun i => (range b).map fun j => i + a * j) ⊆
      range (a * b) := by
    intro x hx
    obtain ⟨i, hi, hx⟩ := mem_flatMap.mp hx
    obtain ⟨j, hj, rfl⟩ := mem_map.mp hx
    rw [mem_range] at hi hj ⊢
    calc i + a * j < a + a * j := Nat.add_lt_add_right hi _
      _ = a * (j + 1) := by rw [Nat.mul_succ, add_comm]
      _ ≤ a * b := Nat.mul_le_mul_left a hj
  refine (hnodup.subperm hsub).perm_of_length_le ?_
  simp

theorem flatMap_expansions_perm (ht : Dictht K V) (h : ht.buckets.length = a * b) :
    ((range a).flatMap fun i => (range b).flatMap fun j => ht.bucket (i + a * j)).Perm
      ht.entries := by
  have hblocks := (range_blocks_perm a b).flatMap_right ht.bucket
  rw [← h, flatMap_bucket, flatMap_assoc] at hblocks
  simpa only [flatMap_map] using hblocks

/-- **One call.** Together, the calls with the cursors below the number of live buckets pass every
entry once. -/
theorem dictScan_covers (h : d.Shape fun k => (hash k).toNat) (hne : d.entries ≠ [])
    (hsize : d.ht0.size < 2 ^ 64 ∧ d.ht1.size < 2 ^ 64) :
    ∃ (n : Nat) (F : Nat → List (DictEntry K V)), n ≤ 64 ∧ d.liveBuckets = 2 ^ n ∧
      (∀ v : BitVec 64, v.toNat < 2 ^ n → ∃ visits, dictScan d v = .ok (advance n v, visits) ∧
        passed visits = F v.toNat) ∧ ((range (2 ^ n)).flatMap F).Perm d.entries := by
  have hused := h.used_ne_zero hne
  have hsize' : ∀ b, (d.ht b).size < 2 ^ 64 := fun b => by
    obtain _ | _ := b
    · exact hsize.1
    exact hsize.2
  -- a table has as many buckets as its bits say
  have hbits : ∀ b, ((d.ht b).Ok fun k => (hash k).toNat) →
      ∃ j, (d.ht b).size = 2 ^ j ∧ (d.ht b).Bits j ∧ (d.ht b).buckets.length = 2 ^ j := by
    intro b hok
    obtain ⟨j, hj, hb⟩ := hok.exists_bits
    have hlt := hsize' b
    rw [hj] at hlt
    have hj64 : j < 64 := (Nat.pow_lt_pow_iff_right (by decide)).mp hlt
    rw [min_eq_left (by omega)] at hb
    exact ⟨j, hj, hb, by rw [← hok.size_eq, hj]⟩
  cases h with
  | fresh h0 h1 idx => exact absurd (by simp [Dict.entries, h0, h1]) hne
  | stable h0 h1 idx =>
    have hok : (d.ht false).Ok fun k => (hash k).toNat := h0
    obtain ⟨n, hn, hb, hlen⟩ := hbits false hok
    have hre : d.isRehashing = false := by simp [Dict.isRehashing, idx]
    refine ⟨n, d.ht0.bucket, hb.le, ?_, fun v hv => ?_, ?_⟩
    · rw [Dict.liveBuckets, hre, if_neg Bool.false_ne_true]
      exact hn
    · obtain ⟨visits, hscan, hpassed⟩ := dictScan_stable hused hre hok hb v
      rw [Nat.mod_eq_of_lt hv] at hpassed
      exact ⟨visits, hscan, hpassed⟩
    have hall := flatMap_bucket d.ht0
    rw [show d.ht0.buckets.length = 2 ^ n from hlen] at hall
    rw [hall, Dict.entries, h1, Dictht.entries_dictReset, append_nil]
  | rehashing r h =>
    obtain ⟨hre, hok⟩ := h.tables
    obtain ⟨n0, hn0, hb0, hlen0⟩ := hbits d.smaller (hok _)
    obtain ⟨n1, hn1, hb1, hlen1⟩ := hbits (!d.smaller) (hok _)
    have hle : n0 ≤ n1 := by
      have := d.size_smaller.1
      rw [hn0, hn1] at this
      exact (Nat.pow_le_pow_iff_right (by decide)).mp this
    have hpow : 2 ^ n1 = 2 ^ n0 * 2 ^ (n1 - n0) := by rw [← pow_add, Nat.add_sub_cancel' hle]
    refine ⟨n0, fun i => (d.ht d.smaller).bucket i ++ (range (2 ^ (n1 - n0))).flatMap fun j =>
      (d.ht !d.smaller).bucket (i + 2 ^ n0 * j), hb0.le, ?_, fun v hv => ?_, ?_⟩
    · rw [Dict.liveBuckets, hre, if_pos rfl, ← d.size_smaller.2, hn0]
    · obtain ⟨visits, hscan, hpassed⟩ := dictScan_rehashing hused hre hok hb0 hb1 hle v
      rw [Nat.mod_eq_of_lt hv, Nat.div_eq_of_lt hv, Nat.zero_mod, Nat.sub_zero,
        ← range_eq_range'] at hpassed
      exact ⟨visits, hscan, hpassed⟩
    have hparts := flatMap_append_perm (range (2 ^ n0)) (d.ht d.smaller).bucket fun i =>
      (range (2 ^ (n1 - n0))).flatMap fun j => (d.ht !d.smaller).bucket (i + 2 ^ n0 * j)
    refine hparts.symm.trans ?_
    have hfirst := flatMap_bucket (d.ht d.smaller)
    rw [hlen0] at hfirst
    rw [hfirst]
    refine ((flatMap_expansions_perm _ (hlen1.trans hpow)).append_left _).trans ?_
    rw [Dict.entries]
    obtain _ | _ := d.smaller
    · exact .refl _
    exact perm_append_comm

end

/-! ## The cursors -/

/-- The cursor of the call number `i`, in a dict with `2 ^ n` live buckets. -/
def cursor (n i : Nat) : BitVec 64 := (BitVec.ofNat 64 (i * 2 ^ (64 - n))).reverse

section

variable {n i j : Nat}

theorem place_cursor (hn : n ≤ 64) (hi : i < 2 ^ n) : place (cursor n i) = i * 2 ^ (64 - n) := by
  have hpow : 2 ^ 64 = 2 ^ n * 2 ^ (64 - n) := by rw [← pow_add, Nat.add_sub_cancel' hn]
  rw [place, cursor, BitVec.reverse_reverse_eq, BitVec.toNat_ofNat, Nat.mod_eq_of_lt]
  rw [hpow]
  exact Nat.mul_lt_mul_of_pos_right hi (Nat.two_pow_pos _)

theorem cursor_zero (n : Nat) : cursor n 0 = 0 := by
  refine place_inj ?_
  rw [place, cursor, BitVec.reverse_reverse_eq, place_zero]
  simp

section

variable (hn : n ≤ 64) (hi : i < 2 ^ n)
include hn hi

theorem cursor_lt : (cursor n i).toNat < 2 ^ n := by
  refine Nat.lt_pow_two_of_testBit _ fun b hb => ?_
  rw [BitVec.testBit_toNat]
  by_cases hb64 : b < 64
  · have hbit := testBit_place (x := cursor n i) (63 - b)
    rw [place_cursor hn hi, Nat.testBit_mul_two_pow] at hbit
    rw [show 64 - 1 - (63 - b) = b by omega] at hbit
    simpa [show ¬ 64 - n ≤ 63 - b by omega, show 63 - b < 64 by omega] using hbit.symm
  · exact BitVec.getLsbD_of_ge _ _ (by omega)

theorem cursor_inj (hj : j < 2 ^ n) (h : (cursor n i).toNat = (cursor n j).toNat) : i = j := by
  have hplace := congrArg place (BitVec.eq_of_toNat_eq h)
  rw [place_cursor hn hi, place_cursor hn hj] at hplace
  exact Nat.eq_of_mul_eq_mul_right (Nat.two_pow_pos _) hplace

theorem advance_cursor :
    if i + 1 = 2 ^ n then advance n (cursor n i) = 0
    else advance n (cursor n i) = cursor n (i + 1) ∧ advance n (cursor n i) ≠ 0 := by
  have hpow : 2 ^ 64 = 2 ^ n * 2 ^ (64 - n) := by rw [← pow_add, Nat.add_sub_cancel' hn]
  have hplace := place_advance (x := cursor n i) hn
  rw [place_cursor hn hi, Nat.mul_div_cancel _ (Nat.two_pow_pos _)] at hplace
  split
  · next hlast =>
    rw [hlast, ← hpow, Nat.mod_self] at hplace
    exact place_inj (hplace.trans place_zero.symm)
  next hlast =>
  have hlt : i + 1 < 2 ^ n := by omega
  have hmul : (i + 1) * 2 ^ (64 - n) < 2 ^ 64 := by
    rw [hpow]
    exact Nat.mul_lt_mul_of_pos_right hlt (Nat.two_pow_pos _)
  rw [Nat.mod_eq_of_lt hmul] at hplace
  refine ⟨place_inj (hplace.trans (place_cursor hn hlt).symm), fun hzero => ?_⟩
  rw [hzero, place_zero] at hplace
  exact absurd hplace (ne_of_lt (Nat.mul_pos (Nat.succ_pos i) (Nat.two_pow_pos _)))

end

theorem cursors_perm (hn : n ≤ 64) :
    ((range (2 ^ n)).map fun i => (cursor n i).toNat).Perm (range (2 ^ n)) := by
  have hnodup : ((range (2 ^ n)).map fun i => (cursor n i).toNat).Nodup := by
    refine List.Nodup.map_on (fun i hi j hj h => ?_) nodup_range
    exact cursor_inj hn (mem_range.mp hi) (mem_range.mp hj) h
  have hsub : ((range (2 ^ n)).map fun i => (cursor n i).toNat) ⊆ range (2 ^ n) := by
    intro x hx
    obtain ⟨i, hi, rfl⟩ := mem_map.mp hx
    exact mem_range.mpr (cursor_lt hn (mem_range.mp hi))
  refine (hnodup.subperm hsub).perm_of_length_le ?_
  simp

end

/-! ## The iteration -/

theorem scanAll_from {n : Nat} {F : Nat → List (DictEntry K V)} (hn : n ≤ 64)
    (hcall : ∀ v : BitVec 64, v.toNat < 2 ^ n →
      ∃ visits, dictScan d v = .ok (advance n v, visits) ∧ passed visits = F v.toNat)
    {i m fuel : Nat} (hi : i + (m + 1) = 2 ^ n) (hfuel : m + 1 ≤ fuel) :
    ∃ visits, scanAll d fuel (cursor n i) = .ok (m + 1, visits) ∧
      passed visits = (List.range' i (m + 1)).flatMap fun i => F (cursor n i).toNat := by
  induction m generalizing i fuel with
  | zero =>
    obtain ⟨fuel, rfl⟩ : ∃ f, fuel = f + 1 := ⟨fuel - 1, by omega⟩
    obtain ⟨visits, hscan, hpassed⟩ := hcall _ (cursor_lt hn (show i < 2 ^ n by omega))
    have hnext := advance_cursor hn (show i < 2 ^ n by omega)
    rw [if_pos hi] at hnext
    refine ⟨visits, ?_, by simp [hpassed]⟩
    rw [scanAll, hscan, ok_bind]
    dsimp only
    rw [if_pos hnext]
    rfl
  | succ m ih =>
    obtain ⟨fuel, rfl⟩ : ∃ f, fuel = f + 1 := ⟨fuel - 1, by omega⟩
    obtain ⟨visits, hscan, hpassed⟩ := hcall _ (cursor_lt hn (show i < 2 ^ n by omega))
    have hnext := advance_cursor hn (show i < 2 ^ n by omega)
    rw [if_neg (by omega)] at hnext
    obtain ⟨rest, hrest, hpassed'⟩ := @ih (i + 1) fuel (by omega) (by omega)
    refine ⟨visits ++ rest, ?_, ?_⟩
    · rw [scanAll, hscan, ok_bind]
      dsimp only
      rw [if_neg hnext.2, hnext.1, hrest, ok_bind]
      rfl
    rw [range'_succ, flatMap_cons, ← hpassed, ← hpassed']
    simp [passed]

/-- **A full iteration over a dict that does not change.** There are as many calls as the smaller live
table has buckets, and every entry of both tables is passed once; without entries there is one
call, however many buckets there are. -/
theorem scanAll_exact (h : d.Shape fun k => (hash k).toNat)
    (hsize : d.ht0.size < 2 ^ 64 ∧ d.ht1.size < 2 ^ 64) {fuel : Nat}
    (hfuel : max 1 d.liveBuckets ≤ fuel) :
    (d.entries = [] → scanAll d fuel 0 = .ok (1, [])) ∧ (d.entries ≠ [] →
      ∃ visits, scanAll d fuel 0 = .ok (d.liveBuckets, visits) ∧
        (passed visits).Perm d.entries) := by
  refine ⟨fun hnil => ?_, fun hne => ?_⟩
  · obtain ⟨fuel, rfl⟩ : ∃ k, fuel = k + 1 := ⟨fuel - 1, by omega⟩
    rw [scanAll, dictScan, if_pos (by rw [h.used_eq, hnil, length_nil]), ok_bind]
    rfl
  obtain ⟨n, F, hn, hlive, hcall, hperm⟩ := dictScan_covers h hne hsize
  have hpos := Nat.two_pow_pos n
  obtain ⟨visits, hscan, hpassed⟩ := @scanAll_from _ _ _ _ _ hn hcall 0 (2 ^ n - 1) fuel (by omega)
    (by omega)
  rw [Nat.sub_add_cancel hpos] at hscan hpassed
  rw [cursor_zero] at hscan
  refine ⟨visits, by rw [hscan, hlive], ?_⟩
  rw [hpassed, ← range_eq_range']
  have hcursors := (cursors_perm hn).flatMap_right F
  rw [flatMap_map] at hcursors
  exact hcursors.trans hperm

/-- A dict in the middle of a rehash from 4 to 16 buckets, with a key in each table. -/
theorem scanAll_exact_rehashing : ∃ p, DictState.init.run (fun k => (identityHash k).toNat)
        [.add 1 'a', .add 6 'b', .expand 16, .rehash 1] = .ok p ∧
      p.1.dict.isRehashing = true ∧
      ∃ visits, scanAll p.1.dict 4 0 = .ok (p.1.dict.liveBuckets, visits) ∧
        (passed visits).Perm p.1.dict.entries := by
  refine exists_ok_imp (P := fun p => p.1.dict.isRehashing = true ∧ p.1.dict.entries ≠ [] ∧
    p.1.dict.ht0.size < 2 ^ 64 ∧ p.1.dict.ht1.size < 2 ^ 64 ∧ max 1 p.1.dict.liveBuckets ≤ 4)
    (by decide +kernel) ?_
  rintro ⟨s, rs⟩ hrun ⟨hre, hne, h0, h1, hlive⟩
  have hinit : (DictState.init : DictState Nat Char).dict.Shape fun k => (identityHash k).toNat :=
    .create
  obtain ⟨s', rs', hrun', hshape, -⟩ := DictState.run_refines hinit .create
    (show DictState.init.RunFits _ [.add 1 'a', .add 6 'b', .expand 16, .rehash 1] by decide +kernel)
  rw [hrun] at hrun'
  cases hrun'
  exact ⟨hre, (scanAll_exact hshape ⟨h0, h1⟩ hlive).2 hne⟩

/-- A dict without entries needs one call, however many buckets it has. -/
theorem scanAll_empty :
    ∃ p, DictState.init.run (fun k => (identityHash k).toNat) [.add 1 'a', .delete 1] = .ok p ∧
      p.1.dict.liveBuckets = 4 ∧ scanAll p.1.dict 4 0 = .ok (1, []) := by
  decide +kernel

end UfsRedis.Keyspace
