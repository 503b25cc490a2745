import UfsRedis.Keyspace.DictMap
import UfsRedis.Lib.BitReverse

/-!
# Iterating with a cursor

`dictScan` of `src/dict.c` visits the buckets of one cursor and gives the cursor of the next call.
Between two calls the tables may be resized in both directions. The cursor counts with its bits
reversed, so that the hashes that have been visited are always those with a smaller reversed value
(`Lib.place`), whatever the number of buckets was.

While the dict is rehashed, the buckets of the larger table with the lowest bits of the cursor are
visited too. That loop does not count with reversed bits, and it starts at the cursor. It skips the
buckets with smaller numbers, of which some come later in the reversed order. `Skips` says which
entries these are.
-/

namespace UfsRedis.Keyspace

open List Lib

variable {K V : Type}

/-! ## The functions -/

/-- The loop of `rev`. -/
def revLoop : Nat → Nat → BitVec 64 → BitVec 64 → BitVec 64
  | 0, _, _, v => v
  | fuel + 1, s, mask, v =>
    let s := s >>> 1
    if s > 0 then
      let mask := mask ^^^ (mask <<< s)
      revLoop fuel s mask ((v >>> s) &&& mask ||| (v <<< s) &&& ~~~ mask)
    else v

/-- `rev`. The bit size 64 is halved 7 times until it is 0. -/
def rev (v : BitVec 64) : BitVec 64 := revLoop 7 64 (BitVec.allOnes 64) v

/-- A bucket that a call visits: `bucketfn` is called with it, and `fn` with the entries of its
chain. -/
structure Visit (K V : Type) where
  second : Bool
  idx : Nat
  chain : List (DictEntry K V)
  deriving DecidableEq, Repr

/-- `sizemask` as an `unsigned long`. -/
def Dictht.mask (ht : Dictht K V) : BitVec 64 := BitVec.ofNat 64 ht.sizemask

/-- Emit the entries at `v & m`. -/
def Dict.visit (d : Dict K V) (second : Bool) (v m : BitVec 64) : Except Fault (Visit K V) := do
  let idx := (v &&& m).toNat
  let chain ← (d.ht second).chain idx
  return ⟨second, idx, chain⟩

/-- The loop of `dictScan` over the expansions of the cursor in the larger table. -/
def scanExpansions (d : Dict K V) (second : Bool) (m0 m1 : BitVec 64) :
    Nat → BitVec 64 → Except Fault (BitVec 64 × List (Visit K V))
  | 0, _ => .error .noFuel
  | fuel + 1, v => do
    let visit ← d.visit second v m1
    let v := ((v ||| m0) + 1) &&& ~~~ m0 ||| v &&& m0
    if v &&& (m0 ^^^ m1) ≠ 0 then
      let (v, visits) ← scanExpansions d second m0 m1 fuel v
      return (v, visit :: visits)
    else return (v, [visit])

def Dict.smaller (d : Dict K V) : Bool := decide (d.ht0.size > d.ht1.size)

/-- The part of `dictScan` that emits entries: `v` and `m0` after it, and the buckets. -/
def scanTables (d : Dict K V) (v : BitVec 64) :
    Except Fault (BitVec 64 × BitVec 64 × List (Visit K V)) :=
  if !d.isRehashing then do
    let m0 := d.ht0.mask
    let visit ← d.visit false v m0
    return (v, m0, [visit])
  else do
    let m0 := (d.ht d.smaller).mask
    let m1 := (d.ht !d.smaller).mask
    let visit ← d.visit d.smaller v m0
    let (v, visits) ← scanExpansions d (!d.smaller) m0 m1 (d.ht !d.smaller).size v
    return (v, m0, visit :: visits)

/-- `dictScan`: the next cursor, and the buckets that were visited. -/
def dictScan (d : Dict K V) (v : BitVec 64) : Except Fault (BitVec 64 × List (Visit K V)) :=
  if d.ht0.used + d.ht1.used = 0 then .ok (0, [])
  else do
    let (v, m0, visits) ← scanTables d v
    let v := v ||| ~~~ m0
    let v := rev v
    let v := v + 1
    let v := rev v
    return (v, visits)

/-- The entries that `fn` is called with. -/
def passed (visits : List (Visit K V)) : List (DictEntry K V) := visits.flatMap (·.chain)

/-! ## The reversed bits -/

/-- One round of `rev` exchanges the bits whose numbers differ in the bit `s`, where the mask has
the numbers without this bit. -/
theorem getLsbD_swap {v mask : BitVec 64} {s i : Nat}
    (hmask : ∀ j < 64, if mask.getLsbD j then j ^^^ s = s + j else s ≤ j ∧ j ^^^ s = j - s)
    (hi : i < 64) :
    ((v >>> s) &&& mask ||| (v <<< s) &&& ~~~ mask).getLsbD i = v.getLsbD (i ^^^ s) := by
  have hbit := hmask i hi
  simp only [BitVec.getLsbD_or, BitVec.getLsbD_and, BitVec.getLsbD_not, BitVec.getLsbD_ushiftRight,
    BitVec.getLsbD_shiftLeft]
  split_ifs at hbit with hm
  · simp [hm, hbit]
  have hs : ¬ i < s := by omega
  rw [eq_false_of_ne_true hm, hbit.2, decide_eq_true hi, decide_eq_false hs]
  simp

theorem rev_eq_reverse (v : BitVec 64) : rev v = v.reverse := by
  refine BitVec.eq_of_getLsbD_eq fun i hi => ?_
  have hxor : ∀ j < 64, j ^^^ 1 < 64 ∧ j ^^^ 2 < 64 ∧ j ^^^ 4 < 64 ∧ j ^^^ 8 < 64 ∧ j ^^^ 16 < 64 := by
    decide
  have hall : ∀ j < 64, j ^^^ 1 ^^^ 2 ^^^ 4 ^^^ 8 ^^^ 16 ^^^ 32 = 63 - j := by decide
  have h1 := (hxor i hi).1
  have h2 := (hxor _ h1).2.1
  have h4 := (hxor _ h2).2.2.1
  have h8 := (hxor _ h4).2.2.2.1
  have h16 := (hxor _ h8).2.2.2.2
  rw [BitVec.getLsbD_reverse, BitVec.getMsbD_eq_getLsbD, decide_eq_true hi, Bool.true_and]
  simp only [rev, revLoop, Nat.reduceShiftRight, gt_iff_lt, Nat.reduceLT, if_true, if_false]
  rw [getLsbD_swap (by decide) hi, getLsbD_swap (by decide) h1, getLsbD_swap (by decide) h2,
    getLsbD_swap (by decide) h4, getLsbD_swap (by decide) h8, getLsbD_swap (by decide) h16,
    hall i hi]

/-! ## One call -/

section

variable {hash : K → BitVec 64} {d : Dict K V} {ht : Dictht K V} {v : BitVec 64} {second : Bool}
  {n n0 n1 fuel : Nat}

/-- The table has the buckets of the `n` lowest bits of a hash. -/
structure Dictht.Bits (ht : Dictht K V) (n : Nat) : Prop where
  le : n ≤ 64
  mask_eq : ht.mask = lowMask 64 n
  size_le : 2 ^ n ≤ ht.size
  and_eq : ∀ x : BitVec 64, x.toNat &&& ht.sizemask = x.toNat % 2 ^ n

theorem Dictht.Ok.exists_bits (h : ht.Ok fun k => (hash k).toNat) :
    ∃ j, ht.size = 2 ^ j ∧ ht.Bits (min j 64) := by
  obtain ⟨j, hj⟩ := h.pow
  refine ⟨j, hj, min_le_right _ _, ?_, ?_, fun x => ?_⟩
  · refine BitVec.eq_of_getLsbD_eq fun i hi => ?_
    rw [getLsbD_lowMask, Dictht.mask, h.mask_eq, hj, BitVec.getLsbD_ofNat,
      Nat.testBit_two_pow_sub_one]
    simp [hi]
  · rw [hj]
    exact Nat.pow_le_pow_right (by omega) (min_le_left _ _)
  rw [h.mask_eq, hj, Nat.and_two_pow_sub_one_eq_mod]
  rcases le_total j 64 with hle | hle
  · rw [min_eq_left hle]
  have hlt : x.toNat < 2 ^ j := lt_of_lt_of_le x.isLt (Nat.pow_le_pow_right (by omega) hle)
  rw [min_eq_right hle, Nat.mod_eq_of_lt hlt, Nat.mod_eq_of_lt x.isLt]

def Dictht.bucket (ht : Dictht K V) (i : Nat) : List (DictEntry K V) := ht.buckets[i]?.getD []

theorem visit_eq (h : (d.ht second).Ok fun k => (hash k).toNat) (hb : (d.ht second).Bits n)
    (v : BitVec 64) : d.visit second v (d.ht second).mask =
      .ok ⟨second, v.toNat % 2 ^ n, (d.ht second).bucket (v.toNat % 2 ^ n)⟩ := by
  have hidx : (v &&& (d.ht second).mask).toNat = v.toNat % 2 ^ n := by
    rw [hb.mask_eq, toNat_and_lowMask hb.le]
  have hlt : v.toNat % 2 ^ n < (d.ht second).buckets.length := by
    rw [← h.size_eq]
    exact lt_of_lt_of_le (Nat.mod_lt _ (Nat.two_pow_pos n)) hb.size_le
  have hget := getElem?_eq_getElem hlt
  rw [Dict.visit, hidx, Dictht.chain_eq_ok_iff.2 hget, ok_bind, Dictht.bucket, hget]
  rfl

theorem Dictht.Ok.mem_bucket (h : ht.Ok fun k => (hash k).toNat) (hb : ht.Bits n)
    (he : e ∈ ht.entries) : e ∈ ht.bucket ((hash e.key).toNat % 2 ^ n) := by
  have hlt : (hash e.key).toNat % 2 ^ n < ht.buckets.length := by
    rw [← h.size_eq]
    exact lt_of_lt_of_le (Nat.mod_lt _ (Nat.two_pow_pos n)) hb.size_le
  have hget := getElem?_eq_getElem hlt
  rw [Dictht.bucket, hget]
  refine (h.mem_chain_iff (k := e.key) ?_ rfl).mpr he
  rw [hb.and_eq]
  exact Dictht.chain_eq_ok_iff.2 hget

theorem mod_two_pow_eq (hle : n0 ≤ n1) (a : Nat) :
    a % 2 ^ n1 = a % 2 ^ n0 + 2 ^ n0 * (a / 2 ^ n0 % 2 ^ (n1 - n0)) := by
  rw [← Nat.mod_mul, ← pow_add, Nat.add_sub_cancel' hle]

theorem scanExpansions_buckets (h : (d.ht second).Ok fun k => (hash k).toNat)
    (hb : (d.ht second).Bits n1) (hle : n0 ≤ n1)
    (ha : v.toNat / 2 ^ n0 % 2 ^ (n1 - n0) = a) (hfuel : 2 ^ (n1 - n0) ≤ fuel + a) : ∃ v' visits,
      scanExpansions d second (lowMask 64 n0) (d.ht second).mask fuel v = .ok (v', visits) ∧
      v'.toNat % 2 ^ n0 = v.toNat % 2 ^ n0 ∧
      passed visits = (List.range' a (2 ^ (n1 - n0) - a)).flatMap fun j =>
        (d.ht second).bucket (v.toNat % 2 ^ n0 + 2 ^ n0 * j) := by
  have hlt : a < 2 ^ (n1 - n0) := ha ▸ Nat.mod_lt _ (Nat.two_pow_pos _)
  have hn0 : n0 ≤ 64 := le_trans hle hb.le
  induction fuel generalizing v a with
  | zero => omega
  | succ fuel ih =>
    have hvisit := visit_eq h hb v
    rw [mod_two_pow_eq hle, ha] at hvisit
    -- the next cursor: the same lowest bits, and the bits above them counted up
    have hnext : (expand n0 v).toNat % 2 ^ n0 = v.toNat % 2 ^ n0 := by
      rw [toNat_expand hn0, Nat.mul_add_mod, Nat.mod_mod]
    have hhigh : (expand n0 v).toNat / 2 ^ n0 % 2 ^ (n1 - n0) = (a + 1) % 2 ^ (n1 - n0) := by
      rw [toNat_expand hn0, Nat.mul_add_div (Nat.two_pow_pos _),
        Nat.div_eq_of_lt (Nat.mod_lt _ (Nat.two_pow_pos _)), add_zero,
        Nat.mod_mod_of_dvd _ (Nat.pow_dvd_pow 2 (by have := hb.le; omega)), ← ha, Nat.mod_add_mod]
    have hzero : expand n0 v &&& (lowMask 64 n0 ^^^ (d.ht second).mask) = 0 ↔
        (a + 1) % 2 ^ (n1 - n0) = 0 := by
      rw [hb.mask_eq, ← hhigh]
      exact and_xor_lowMask_eq_zero_iff hle hb.le
    have hexpand : ((v ||| lowMask 64 n0) + 1) &&& ~~~ lowMask 64 n0 ||| v &&& lowMask 64 n0 =
        expand n0 v := rfl
    have hcount : 2 ^ (n1 - n0) - a = 2 ^ (n1 - n0) - (a + 1) + 1 := by omega
    rw [scanExpansions, hvisit, ok_bind, hexpand, hcount, range'_succ, flatMap_cons]
    by_cases hend : a + 1 = 2 ^ (n1 - n0)
    · rw [if_neg (not_not_intro (hzero.mpr (by rw [hend, Nat.mod_self])))]
      refine ⟨_, _, rfl, hnext, ?_⟩
      simp [passed, hend]
    have hmod : (a + 1) % 2 ^ (n1 - n0) = a + 1 := Nat.mod_eq_of_lt (by omega)
    rw [hmod] at hhigh hzero
    obtain ⟨v', visits, hrun, hlow', hrest⟩ := ih hhigh (by omega) (by omega)
    rw [if_pos (fun hz => by have := hzero.mp hz; omega), hrun, ok_bind]
    refine ⟨v', _, rfl, hlow'.trans hnext, ?_⟩
    rw [hnext] at hrest
    simp only [passed, flatMap_cons] at hrest ⊢
    rw [hrest]

theorem mod_eq_of_block {x y : BitVec 64} (hn : n ≤ 64)
    (h : place x / 2 ^ (64 - n) = place y / 2 ^ (64 - n)) : x.toNat % 2 ^ n = y.toNat % 2 ^ n := by
  rw [← toNat_and_lowMask hn, ← toNat_and_lowMask hn, (and_lowMask_eq_iff hn).mpr h]

/-- The entries that a call leaves out in the loop over the expansions: those of the larger table
with the lowest bits of the cursor, in a bucket with a smaller number than the one where the loop
starts. -/
def Skips (hash : K → BitVec 64) (d : Dict K V) (v : BitVec 64) (e : DictEntry K V) : Prop :=
  d.isRehashing ∧ e ∈ (d.ht !d.smaller).entries ∧
    hash e.key &&& (d.ht d.smaller).mask = v &&& (d.ht d.smaller).mask ∧
    (hash e.key &&& (d.ht !d.smaller).mask).toNat < (v &&& (d.ht !d.smaller).mask).toNat

theorem advance_eq_rev (n : Nat) (x : BitVec 64) :
    rev (rev (x ||| ~~~ lowMask 64 n) + 1) = advance n x := by
  rw [rev_eq_reverse, rev_eq_reverse, advance]

theorem Dict.Shape.used_ne_zero (h : d.Shape fun k => (hash k).toNat) (hne : d.entries ≠ []) :
    ¬ d.ht0.used + d.ht1.used = 0 := by
  rw [h.used_eq]
  exact fun hzero => hne (eq_nil_of_length_eq_zero hzero)

theorem Dict.size_smaller (d : Dict K V) : (d.ht d.smaller).size ≤ (d.ht !d.smaller).size ∧
    (d.ht d.smaller).size = min d.ht0.size d.ht1.size := by
  unfold Dict.smaller Dict.ht
  by_cases hgt : d.ht0.size > d.ht1.size
  · simp [hgt, le_of_lt hgt]
  · simp [hgt, Nat.le_of_not_lt hgt]

theorem dictScan_stable (hused : ¬ d.ht0.used + d.ht1.used = 0) (hre : d.isRehashing = false)
    (hok : (d.ht false).Ok fun k => (hash k).toNat) (hb : (d.ht false).Bits n) (v : BitVec 64) :
    ∃ visits, dictScan d v = .ok (advance n v, visits) ∧
      passed visits = d.ht0.bucket (v.toNat % 2 ^ n) := by
  refine ⟨[⟨false, v.toNat % 2 ^ n, d.ht0.bucket (v.toNat % 2 ^ n)⟩], ?_, by simp [passed]⟩
  rw [dictScan, if_neg hused, scanTables, hre, if_pos (show (!false) = true from rfl)]
  dsimp only
  rw [show d.ht0.mask = (d.ht false).mask from rfl, visit_eq hok hb v, ok_bind, pure_eq_ok, ok_bind,
    hb.mask_eq, ← advance_eq_rev]
  rfl

theorem dictScan_rehashing (hused : ¬ d.ht0.used + d.ht1.used = 0) (hre : d.isRehashing = true)
    (hok : ∀ b, (d.ht b).Ok fun k => (hash k).toNat) (hb0 : (d.ht d.smaller).Bits n0)
    (hb1 : (d.ht !d.smaller).Bits n1) (hle : n0 ≤ n1) (v : BitVec 64) :
    ∃ visits, dictScan d v = .ok (advance n0 v, visits) ∧
      passed visits = (d.ht d.smaller).bucket (v.toNat % 2 ^ n0) ++
        (List.range' (v.toNat / 2 ^ n0 % 2 ^ (n1 - n0))
          (2 ^ (n1 - n0) - v.toNat / 2 ^ n0 % 2 ^ (n1 - n0))).flatMap fun j =>
            (d.ht !d.smaller).bucket (v.toNat % 2 ^ n0 + 2 ^ n0 * j) := by
  have hfuel : 2 ^ (n1 - n0) ≤ (d.ht !d.smaller).size + v.toNat / 2 ^ n0 % 2 ^ (n1 - n0) := by
    have h1 := hb1.size_le
    have h2 : 2 ^ (n1 - n0) ≤ 2 ^ n1 := Nat.pow_le_pow_right (by omega) (by omega)
    omega
  obtain ⟨v', visits, hloop, hlow, hpassed⟩ := scanExpansions_buckets (hok !d.smaller) hb1 hle rfl hfuel
  refine ⟨⟨d.smaller, v.toNat % 2 ^ n0, (d.ht d.smaller).bucket (v.toNat % 2 ^ n0)⟩ :: visits, ?_,
    by rw [← hpassed]; rfl⟩
  have htables : scanTables d v = .ok (v', lowMask 64 n0,
      ⟨d.smaller, v.toNat % 2 ^ n0, (d.ht d.smaller).bucket (v.toNat % 2 ^ n0)⟩ :: visits) := by
    rw [scanTables, hre, if_neg (show ¬ (!true) = true from Bool.false_ne_true)]
    dsimp only
    rw [visit_eq (hok d.smaller) hb0 v, ok_bind, hb0.mask_eq, hloop, ok_bind]
    rfl
  rw [dictScan, if_neg hused, htables, ok_bind, ← advance_congr hb0.le hlow, ← advance_eq_rev]
  rfl

/-- One call: the next cursor is the one of the next block, and the entries of the block of the
cursor are emitted, but for those that the call skips. -/
theorem dictScan_spec (h : d.Shape fun k => (hash k).toNat) (hne : d.entries ≠ []) (v : BitVec 64) :
    ∃ n visits, n ≤ 64 ∧ dictScan d v = .ok (advance n v, visits) ∧
      ∀ e ∈ d.entries, place (hash e.key) / 2 ^ (64 - n) = place v / 2 ^ (64 - n) →
        ¬ Skips hash d v e → e ∈ passed visits := by
  have hused := h.used_ne_zero hne
  cases h with
  | fresh h0 h1 idx => exact absurd (by simp [Dict.entries, h0, h1]) hne
  | stable h0 h1 idx =>
    have hok : (d.ht false).Ok fun k => (hash k).toNat := h0
    obtain ⟨j, -, hb⟩ := hok.exists_bits
    have hre : d.isRehashing = false := by simp [Dict.isRehashing, idx]
    obtain ⟨visits, hscan, hpassed⟩ := dictScan_stable hused hre hok hb v
    refine ⟨min j 64, visits, hb.le, hscan, fun e he hblock _ => ?_⟩
    rw [Dict.entries, h1, Dictht.entries_dictReset, append_nil] at he
    rw [hpassed, ← mod_eq_of_block hb.le hblock]
    exact hok.mem_bucket hb he
  | rehashing r h =>
    obtain ⟨hre, hok⟩ := h.tables
    obtain ⟨j0, hj0, hb0⟩ := (hok d.smaller).exists_bits
    obtain ⟨j1, hj1, hb1⟩ := (hok !d.smaller).exists_bits
    have hle : min j0 64 ≤ min j1 64 := by
      have hsize := d.size_smaller.1
      rw [hj0, hj1] at hsize
      have := (Nat.pow_le_pow_iff_right (by omega)).mp hsize
      omega
    obtain ⟨visits, hscan, hpassed⟩ := dictScan_rehashing hused hre hok hb0 hb1 hle v
    refine ⟨min j0 64, visits, hb0.le, hscan, fun e he hblock hskip => ?_⟩
    have hmod := mod_eq_of_block hb0.le hblock
    have hmem : e ∈ (d.ht d.smaller).entries ∨ e ∈ (d.ht !d.smaller).entries := by
      rw [Dict.entries, mem_append] at he
      obtain _ | _ := d.smaller
      · exact he
      exact he.symm
    rw [hpassed, mem_append, ← hmod]
    refine hmem.imp (fun hmem => (hok _).mem_bucket hb0 hmem) fun hmem => mem_flatMap.mpr ?_
    -- the expansion of the hash is not before the one of the cursor
    have hge : v.toNat % 2 ^ min j1 64 ≤ (hash e.key).toNat % 2 ^ min j1 64 := by
      refine Nat.le_of_not_lt fun hlt => hskip ⟨hre, hmem, ?_, ?_⟩
      · rw [hb0.mask_eq]
        exact (and_lowMask_eq_iff hb0.le).mpr hblock
      rw [hb1.mask_eq, toNat_and_lowMask hb1.le, toNat_and_lowMask hb1.le]
      exact hlt
    have hbucket := (hok _).mem_bucket hb1 hmem
    rw [mod_two_pow_eq hle, mod_two_pow_eq hle, hmod] at hge
    rw [mod_two_pow_eq hle] at hbucket
    have hbits := Nat.le_of_mul_le_mul_left (Nat.le_of_add_le_add_left hge) (Nat.two_pow_pos _)
    have hlt := Nat.mod_lt ((hash e.key).toNat / 2 ^ min j0 64)
      (Nat.two_pow_pos (min j1 64 - min j0 64))
    exact ⟨_, mem_range'_1.mpr ⟨hbits, by omega⟩, hbucket⟩

end

/-! ## Iterations -/

def Dict.HasKey (d : Dict K V) (k : K) : Prop := ∃ e ∈ d.entries, e.key = k

/-- No call leaves out an entry whose place in the order of the cursors is still to come. -/
def SkipsOnlyPassed (hash : K → BitVec 64) (d : Dict K V) (v : BitVec 64) : Prop :=
  ∀ e ∈ d.entries, Skips hash d v e → place (hash e.key) < place v

namespace DictState

variable [DecidableEq K] (hash : K → BitVec 64)

/-- An iteration from the cursor `v` on: calls of `dictScan` until the cursor is 0, and what is
done to the dict between two of them. The result is the last cursor, and the entries that `fn` is
called with. -/
def scan (s : DictState K V) (v : BitVec 64) :
    List (List (DictOp K V)) → Except Fault (BitVec 64 × List (DictEntry K V))
  | [] => do
    let (v, visits) ← dictScan s.dict v
    return (v, passed visits)
  | ops :: opss => do
    let (v, visits) ← dictScan s.dict v
    if v = 0 then return (v, passed visits)
    else
      let (s, _) ← s.run (fun k => (hash k).toNat) ops
      let (v, es) ← scan s v opss
      return (v, passed visits ++ es)

def Keeps (k : K) (s : DictState K V) : List (DictOp K V) → Prop
  | [] => s.dict.HasKey k
  | op :: ops => s.dict.HasKey k ∧
    ∀ p, s.step (fun k => (hash k).toNat) op = .ok p → Keeps k p.1 ops

/-- The key is there in every state from the first call of an iteration to the last. -/
def Present (k : K) (s : DictState K V) (v : BitVec 64) : List (List (DictOp K V)) → Prop
  | [] => s.dict.HasKey k
  | ops :: opss => s.dict.HasKey k ∧ ∀ p, dictScan s.dict v = .ok p → p.1 ≠ 0 →
    s.Keeps hash k ops ∧
      ∀ q, s.run (fun k => (hash k).toNat) ops = .ok q → Present k q.1 p.1 opss

/-- What an iteration needs: no call skips an entry that has not been passed, and between the
calls the tables fit in memory. -/
def ScanMeets (s : DictState K V) (v : BitVec 64) : List (List (DictOp K V)) → Prop
  | [] => SkipsOnlyPassed hash s.dict v
  | ops :: opss => SkipsOnlyPassed hash s.dict v ∧ ∀ p, dictScan s.dict v = .ok p → p.1 ≠ 0 →
    s.RunFits (fun k => (hash k).toNat) ops ∧
      ∀ q, s.run (fun k => (hash k).toNat) ops = .ok q → ScanMeets q.1 p.1 opss

variable {hash} {s : DictState K V} {v : BitVec 64}
  {m : Finmap fun _ : K => Option V}

theorem ScanMeets.skips (h : s.ScanMeets hash v opss) : SkipsOnlyPassed hash s.dict v := by
  cases opss with
  | nil => exact h
  | cons ops opss => exact h.1

omit [DecidableEq K] in
/-- One call: a key whose place is not before the cursor is passed now, or its place is not before
the next cursor. -/
theorem dictScan_passes (h : s.dict.Shape fun k => (hash k).toNat)
    (hskip : SkipsOnlyPassed hash s.dict v) : ∃ v' visits, dictScan s.dict v = .ok (v', visits) ∧
      ∀ k, s.dict.HasKey k → place v ≤ place (hash k) →
        (∃ e ∈ passed visits, e.key = k) ∨ v' ≠ 0 ∧ place v' ≤ place (hash k) := by
  by_cases hne : s.dict.entries = []
  · refine ⟨0, [], ?_, ?_⟩
    · rw [dictScan, if_pos (by rw [h.used_eq, hne, length_nil])]
    rintro k ⟨e, he, -⟩
    rw [hne] at he
    cases he
  obtain ⟨n, visits, hn, hscan, hemit⟩ := dictScan_spec h hne v
  refine ⟨advance n v, visits, hscan, ?_⟩
  rintro _ ⟨e, he, rfl⟩ hplace
  have hpos := Nat.two_pow_pos (64 - n)
  by_cases hblock : place (hash e.key) / 2 ^ (64 - n) = place v / 2 ^ (64 - n)
  · exact Or.inl ⟨e, hemit e he hblock fun hs => absurd (hskip e he hs) (by omega), rfl⟩
  right
  have hle : place v / 2 ^ (64 - n) ≤ place (hash e.key) / 2 ^ (64 - n) :=
    Nat.div_le_div_right hplace
  -- the key is in a later block
  have hend : (place v / 2 ^ (64 - n) + 1) * 2 ^ (64 - n) ≤ place (hash e.key) :=
    (Nat.le_div_iff_mul_le hpos).mp (by omega)
  rcases place_advance_cases (x := v) hn with hadv | ⟨-, hlast⟩
  · rw [← hadv] at hend
    refine ⟨fun hz => ?_, hend⟩
    have hstart : 0 < (place v / 2 ^ (64 - n) + 1) * 2 ^ (64 - n) :=
      Nat.mul_pos (Nat.succ_pos _) hpos
    rw [← hadv, hz, place_zero] at hstart
    exact absurd hstart (lt_irrefl 0)
  rw [← hlast] at hend
  exact absurd place_lt (not_lt.mpr hend)

/-- An iteration from any cursor on passes the keys that are there all the time and whose place is
not before the cursor. -/
theorem scan_passes (opss : List (List (DictOp K V)))
    (h : s.dict.Shape fun k => (hash k).toNat) (hm : s.dict.Represents m)
    (hmeets : s.ScanMeets hash v opss) : ∃ v' es, s.scan hash v opss = .ok (v', es) ∧
      ∀ k, s.Present hash k v opss → place v ≤ place (hash k) → v' = 0 → ∃ e ∈ es, e.key = k := by
  induction opss generalizing s v m with
  | nil =>
    obtain ⟨v', visits, hscan, hpass⟩ := dictScan_passes h hmeets.skips
    refine ⟨v', passed visits, ?_, fun k hk hplace hz => ?_⟩
    · rw [scan, hscan, ok_bind]
      rfl
    · exact (hpass k hk hplace).resolve_right fun hnext => hnext.1 hz
  | cons ops opss ih =>
    obtain ⟨v', visits, hscan, hpass⟩ := dictScan_passes h hmeets.skips
    rw [scan, hscan, ok_bind]
    dsimp only
    split
    · rename_i hz
      refine ⟨v', passed visits, rfl, fun k hk hplace _ => ?_⟩
      exact (hpass k hk.1 hplace).resolve_right fun hnext => hnext.1 hz
    rename_i hz
    obtain ⟨hfits, hnext⟩ := hmeets.2 _ hscan hz
    obtain ⟨s', rs, hrun, h', hm', -⟩ := run_refines h hm hfits
    obtain ⟨v'', es, hrest, hall⟩ := ih h' hm' (hnext _ hrun)
    refine ⟨v'', passed visits ++ es, ?_, fun k hk hplace hz' => ?_⟩
    · rw [hrun, ok_bind, hrest, ok_bind]
      rfl
    rcases hpass k hk.1 hplace with ⟨e, he, hek⟩ | ⟨-, hplace'⟩
    · exact ⟨e, mem_append_left _ he, hek⟩
    obtain ⟨e, he, hek⟩ := hall k ((hk.2 _ hscan hz).2 _ hrun) hplace' hz'
    exact ⟨e, mem_append_right _ he, hek⟩

end DictState

section

variable [DecidableEq K] (hash : K → BitVec 64)

instance (d : Dict K V) (k : K) : Decidable (d.HasKey k) :=
  inferInstanceAs (Decidable (∃ e ∈ d.entries, e.key = k))

instance [DecidableEq V] (d : Dict K V) (v : BitVec 64) : Decidable (SkipsOnlyPassed hash d v) := by
  unfold SkipsOnlyPassed Skips
  infer_instance

namespace DictState

/-- Whether a key is kept can be checked by running the calls. -/
instance decidableKeeps (k : K) :
    (s : DictState K V) → (ops : List (DictOp K V)) → Decidable (s.Keeps hash k ops)
  | s, [] => inferInstanceAs (Decidable (s.dict.HasKey k))
  | s, op :: ops =>
    have := fun s : DictState K V => decidableKeeps k s ops
    inferInstanceAs (Decidable (s.dict.HasKey k ∧
      ∀ p, s.step (fun k => (hash k).toNat) op = .ok p → p.1.Keeps hash k ops))

instance decidablePresent (k : K) : (s : DictState K V) → (v : BitVec 64) →
    (opss : List (List (DictOp K V))) → Decidable (s.Present hash k v opss)
  | s, _, [] => inferInstanceAs (Decidable (s.dict.HasKey k))
  | s, v, ops :: opss =>
    have := fun (s : DictState K V) v => decidablePresent k s v opss
    inferInstanceAs (Decidable (s.dict.HasKey k ∧ ∀ p, dictScan s.dict v = .ok p → p.1 ≠ 0 →
      s.Keeps hash k ops ∧ ∀ q, s.run (fun k => (hash k).toNat) ops = .ok q →
        q.1.Present hash k p.1 opss))

instance decidableScanMeets [DecidableEq V] : (s : DictState K V) → (v : BitVec 64) →
    (opss : List (List (DictOp K V))) → Decidable (s.ScanMeets hash v opss)
  | s, v, [] => inferInstanceAs (Decidable (SkipsOnlyPassed hash s.dict v))
  | s, v, ops :: opss =>
    have := fun (s : DictState K V) v => decidableScanMeets s v opss
    inferInstanceAs (Decidable (SkipsOnlyPassed hash s.dict v ∧
      ∀ p, dictScan s.dict v = .ok p → p.1 ≠ 0 → s.RunFits (fun k => (hash k).toNat) ops ∧
        ∀ q, s.run (fun k => (hash k).toNat) ops = .ok q → q.1.ScanMeets hash p.1 opss))

end DictState

end

/-- The guarantee of `SCAN`, for every dict and every iteration from the cursor 0 in which no call
skips an entry that has not been passed: the calls return, and when the cursor is 0 again, `fn` has
been called with every key that was there from the first call to the last. -/
theorem scan_complete [DecidableEq K] (hash : K → BitVec 64) {ops : List (DictOp K V)}
    {s : DictState K V} {rs : List (DictReply K V)}
    (hfits : DictState.init.RunFits (fun k => (hash k).toNat) ops)
    (hrun : DictState.init.run (fun k => (hash k).toNat) ops = .ok (s, rs))
    (opss : List (List (DictOp K V))) (hmeets : s.ScanMeets hash 0 opss) :
    ∃ v es, s.scan hash 0 opss = .ok (v, es) ∧
      (v = 0 → ∀ k, s.Present hash k 0 opss → ∃ e ∈ es, e.key = k) := by
  have hinit : (DictState.init : DictState K V).dict.Shape fun k => (hash k).toNat := .create
  obtain ⟨s', rs', hrun', h, hm, -⟩ := DictState.run_refines hinit .create hfits
  rw [hrun] at hrun'
  cases hrun'
  obtain ⟨v, es, hscan, hall⟩ := DictState.scan_passes opss h hm hmeets
  refine ⟨v, es, hscan, fun hz k hk => hall k hk ?_ hz⟩
  rw [place_zero]
  exact Nat.zero_le _

def identityHash (k : Nat) : BitVec 64 := BitVec.ofNat 64 k

/-- An iteration during which the dict grows twice, with keys added, moved and deleted. -/
theorem scan_complete_growing : ∃ p, DictState.init.run (fun k => (identityHash k).toNat)
        [.add 0 'a', .add 1 'b', .add 2 'c', .add 3 'd'] = .ok p ∧
      ∃ v es, p.1.scan identityHash 0 [[.add 6 'e'], [.rehash 1], [.delete 0], [.rehash 100],
          [.expand 64], [], [], []] = .ok (v, es) ∧
        (v = 0 → ∀ k, p.1.Present identityHash k 0 [[.add 6 'e'], [.rehash 1], [.delete 0],
          [.rehash 100], [.expand 64], [], [], []] → ∃ e ∈ es, e.key = k) := by
  refine exists_ok_imp (P := fun p => p.1.ScanMeets identityHash 0 [[.add 6 'e'], [.rehash 1],
    [.delete 0], [.rehash 100], [.expand 64], [], [], []]) (by decide +kernel) ?_
  rintro ⟨s, rs⟩ hrun hmeets
  exact scan_complete identityHash (by decide +kernel) hrun _ hmeets

/-- A table of 16 buckets with the key 4, which is resized to 4 buckets after the first call. The
second call has the cursor 8. It visits bucket 0 of the small table and the buckets 8 and 12 of the
large one, but not bucket 4, and the cursor does not come back to it. -/
theorem scan_misses :
    ∃ p, DictState.init.run (fun k => (identityHash k).toNat) [.expand 16, .add 4 'a'] = .ok p ∧
      p.1.Present identityHash 4 0 [[.expand 4], [], [], [], []] ∧
      ∃ q, p.1.scan identityHash 0 [[.expand 4], [], [], [], []] = .ok q ∧
        q.1 = 0 ∧ ∀ e ∈ q.2, e.key ≠ 4 := by
  decide +kernel

end UfsRedis.Keyspace
