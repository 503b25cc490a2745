import UfsRedis.Keyspace.Dict
import UfsRedis.Lib.Buckets
import UfsRedis.Lib.FirstMatch

/-!
# The shape of a hash table

`Dict.Shape hash d` is what every call keeps: the tables have a power of two of buckets, an entry is
in the bucket of its hash, `used` counts the entries, and while the dict is rehashed the buckets
below `rehashidx` are empty. Each function has one lemma that says what it does to the entries, up
to their order:

* `Dict.Shape.edit`: a change of one chain;
* `dictRehash_spec`: rehashing moves entries and keeps them;
* `dictExpand_spec`: a new table has no entries;
* `search_spec`: a search finds the entry of the key if there is one.
-/

namespace UfsRedis.Keyspace

open List

variable {K V : Type} {hash : K → Nat}

/-! ## One table -/

namespace Dictht

variable {ht : Dictht K V} {i : Nat} {c : List (DictEntry K V)}

/-- The buckets, without one where `table` is `NULL`. -/
def buckets (ht : Dictht K V) : List (List (DictEntry K V)) := ht.table.getD []

def entries (ht : Dictht K V) : List (DictEntry K V) := ht.buckets.flatten

/-- A table that has been allocated as large as its `size` says, with each entry in its bucket. -/
structure Ok (hash : K → Nat) (ht : Dictht K V) : Prop where
  table_eq : ht.table = some ht.buckets
  size_eq : ht.size = ht.buckets.length
  pow : ∃ j, ht.size = 2 ^ j
  mask_eq : ht.sizemask = ht.size - 1
  used_eq : ht.used = ht.entries.length
  placed : ∀ i c, ht.buckets[i]? = some c → ∀ e ∈ c, hash e.key &&& ht.sizemask = i

@[simp] theorem entries_dictReset : (dictReset : Dictht K V).entries = [] := rfl

@[simp] theorem used_dictReset : (dictReset : Dictht K V).used = 0 := rfl

theorem chain_eq_ok_iff : ht.chain i = .ok c ↔ ht.buckets[i]? = some c := by
  unfold chain buckets
  obtain _ | t := ht.table
  · simp
  cases h : t[i]? <;> simp [h]

section

variable (h : ht.Ok hash)
include h

theorem Ok.size_pos : 0 < ht.size := by
  obtain ⟨j, hj⟩ := h.pow
  rw [hj]
  exact Nat.two_pow_pos j

theorem Ok.exists_chain (k : K) : ∃ c, ht.chain (hash k &&& ht.sizemask) = .ok c := by
  have hlt : hash k &&& ht.sizemask < ht.buckets.length := by
    have := Nat.and_le_right (n := hash k) (m := ht.sizemask)
    have := h.size_pos
    have := h.mask_eq
    rw [← h.size_eq]
    omega
  exact ⟨_, chain_eq_ok_iff.2 (getElem?_eq_getElem hlt)⟩

theorem Ok.mem_chain_iff
    (hc : ht.chain (hash k &&& ht.sizemask) = .ok c) (he : e.key = k) : e ∈ c ↔ e ∈ ht.entries := by
  have hc := chain_eq_ok_iff.1 hc
  constructor
  · exact fun hm => Lib.mem_flatten_iff_getElem?.2 ⟨_, c, hc, hm⟩
  intro hm
  obtain ⟨i, c', hi, hec⟩ := Lib.mem_flatten_iff_getElem?.1 hm
  have := h.placed i c' hi e hec
  subst he
  rw [← this, hc, Option.some.injEq] at hi
  exact hi ▸ hec

theorem Ok.buckets_setChain (i : Nat) (c' : List (DictEntry K V)) :
    (ht.setChain i c').buckets = ht.buckets.set i c' := by
  show (ht.table.map (·.set i c')).getD [] = ht.buckets.set i c'
  rw [h.table_eq]
  rfl

theorem Ok.chain_setChain (hc : ht.chain i = .ok c) (c' : List (DictEntry K V)) :
    (ht.setChain i c').chain i = .ok c' := by
  have hlt : i < ht.buckets.length := (List.getElem?_eq_some_iff.1 (chain_eq_ok_iff.1 hc)).1
  unfold chain Dictht.setChain
  simp [h.table_eq, getElem?_set_self hlt]

theorem Ok.length_le_used (hc : ht.chain i = .ok c) : c.length ≤ ht.used := by
  obtain ⟨rest, hperm, _⟩ := Lib.exists_flatten_set (chain_eq_ok_iff.1 hc)
  have := hperm.length_eq
  rw [length_append] at this
  rw [h.used_eq]
  unfold entries
  omega

theorem Ok.setChain (hc : ht.chain i = .ok c) (c' : List (DictEntry K V))
    (hp : ∀ e ∈ c', hash e.key &&& ht.sizemask = i) (hu : u + c.length = ht.used + c'.length) :
    Ok hash { ht.setChain i c' with used := u } ∧
      ∃ rest, ht.entries.Perm (c ++ rest) ∧ (ht.setChain i c').entries.Perm (c' ++ rest) := by
  have hc := chain_eq_ok_iff.1 hc
  have hb := h.buckets_setChain i c'
  obtain ⟨rest, h0, hset⟩ := Lib.exists_flatten_set hc
  have h1 : (ht.setChain i c').entries.Perm (c' ++ rest) := by
    unfold entries
    rw [hb]
    exact hset c'
  refine ⟨⟨?_, ?_, h.pow, h.mask_eq, ?_, ?_⟩, rest, h0, h1⟩
  · show (ht.setChain i c').table = some (ht.setChain i c').buckets
    rw [hb, Dictht.setChain, h.table_eq]
    rfl
  · show ht.size = (ht.setChain i c').buckets.length
    rw [hb, length_set, h.size_eq]
  · show u = (ht.setChain i c').entries.length
    have l0 := h0.length_eq
    have l1 := h1.length_eq
    have hu' := h.used_eq
    rw [length_append] at l0 l1
    unfold entries at hu'
    omega
  intro j b hj e he
  rw [show buckets { ht.setChain i c' with used := u } = ht.buckets.set i c' from hb] at hj
  rcases Lib.getElem?_set_cases hj with ⟨rfl, rfl⟩ | ⟨_, hj⟩
  · exact hp e he
  · exact h.placed j b hj e he

theorem Ok.push (e : DictEntry K V) :
    ∃ ht', ht.push (hash e.key &&& ht.sizemask) e = .ok ht' ∧ ht'.Ok hash ∧
      ht'.entries.Perm (e :: ht.entries) ∧ ht'.sizemask = ht.sizemask := by
  obtain ⟨c, hc⟩ := h.exists_chain e.key
  have hp : ∀ a ∈ e :: c, hash a.key &&& ht.sizemask = hash e.key &&& ht.sizemask := by
    intro a ha
    rcases mem_cons.1 ha with rfl | ha
    · rfl
    · exact h.placed _ c (chain_eq_ok_iff.1 hc) a ha
  obtain ⟨hok, rest, h0, h1⟩ := h.setChain hc _ (u := ht.used + 1) hp (by simp; omega)
  refine ⟨_, ?_, hok, ?_, rfl⟩
  · unfold Dictht.push
    rw [hc, ok_bind]
    rfl
  · exact h1.trans (h0.symm.cons e)

end

theorem ok_replicate (j : Nat) : Ok (K := K) (V := V) hash
    ⟨some (replicate (2 ^ j) []), 2 ^ j, 2 ^ j - 1, 0⟩ := by
  refine ⟨rfl, ?_, ⟨j, rfl⟩, rfl, ?_, ?_⟩
  · simp [buckets]
  · simp [entries, buckets]
  intro i c hc e he
  rw [eq_of_mem_replicate (mem_of_getElem? hc)] at he
  cases he

end Dictht

/-! ## Both tables -/

@[simp] theorem Dict.ht_setHt (d : Dict K V) (s : Bool) (ht : Dictht K V) :
    (d.setHt s ht).ht s = ht := by
  cases s <;> rfl

@[simp] theorem Dict.isRehashing_setHt (d : Dict K V) (s : Bool) (ht : Dictht K V) :
    (d.setHt s ht).isRehashing = d.isRehashing := by
  cases s <;> rfl

def Dict.entries (d : Dict K V) : List (DictEntry K V) := d.ht0.entries ++ d.ht1.entries

/-- A dict that is rehashed, with all buckets below `r` moved. -/
structure Rehashing (hash : K → Nat) (d : Dict K V) (r : Nat) : Prop where
  idx : d.rehashidx = some r
  ht0 : d.ht0.Ok hash
  ht1 : d.ht1.Ok hash
  le : r ≤ d.ht0.size
  low : ∀ i < r, d.ht0.buckets[i]? = some []

variable {r size r' : Nat} {n : Int} {d : Dict K V}

theorem Rehashing.tables (h : Rehashing hash d r) :
    d.isRehashing = true ∧ ∀ b, (d.ht b).Ok hash := by
  refine ⟨by simp [Dict.isRehashing, h.idx], fun b => ?_⟩
  obtain _ | _ := b
  · exact h.ht0
  exact h.ht1

/-- The three shapes of a dict. -/
inductive Dict.Shape (hash : K → Nat) (d : Dict K V) : Prop where
  | fresh (ht0 : d.ht0 = dictReset) (ht1 : d.ht1 = dictReset) (idx : d.rehashidx = none)
  | stable (ht0 : d.ht0.Ok hash) (ht1 : d.ht1 = dictReset) (idx : d.rehashidx = none)
  | rehashing (r : Nat) (h : Rehashing hash d r)

namespace Dict.Shape

variable {d : Dict K V}

theorem create : Shape hash (dictCreate : Dict K V) := .fresh rfl rfl rfl

theorem used_eq (h : d.Shape hash) : d.ht0.used + d.ht1.used = d.entries.length := by
  unfold Dict.entries
  rw [length_append]
  cases h with
  | fresh h0 h1 idx => simp [h0, h1]
  | stable h0 h1 idx => simp [h0.used_eq, h1]
  | rehashing r h => rw [h.ht0.used_eq, h.ht1.used_eq]

theorem ht_ok (h : d.Shape hash) (h0 : d.ht0.Ok hash) {s : Bool} (hs : s → d.isRehashing) :
    (d.ht s).Ok hash := by
  obtain _ | _ := s
  · exact h0
  cases h with
  | fresh _ _ idx => simp [Dict.isRehashing, idx] at hs
  | stable _ _ idx => simp [Dict.isRehashing, idx] at hs
  | rehashing r h => exact h.ht1

/-- A change of one chain. An empty bucket of `ht[0]` has to stay empty while the dict is
rehashed. -/
theorem edit (h : d.Shape hash) (h0 : d.ht0.Ok hash) {s : Bool} {i u : Nat}
    {c : List (DictEntry K V)} (hs : s → d.isRehashing) (hc : (d.ht s).chain i = .ok c)
    (c' : List (DictEntry K V)) (hp : ∀ e ∈ c', hash e.key &&& (d.ht s).sizemask = i)
    (hu : u + c.length = (d.ht s).used + c'.length)
    (he : s = false → d.isRehashing → c = [] → c' = []) :
    Shape hash (d.setHt s { (d.ht s).setChain i c' with used := u }) ∧
      ∃ rest, d.entries.Perm (c ++ rest) ∧
        (d.setHt s { (d.ht s).setChain i c' with used := u }).entries.Perm (c' ++ rest) := by
  obtain ⟨hok, rest, p0, p1⟩ := (h.ht_ok h0 hs).setChain hc c' hp hu
  cases s with
  | true =>
    refine ⟨?_, d.ht0.entries ++ rest, ?_, ?_⟩
    · cases h with
      | fresh _ _ idx => simp [Dict.isRehashing, idx] at hs
      | stable _ _ idx => simp [Dict.isRehashing, idx] at hs
      | rehashing r h => exact .rehashing r ⟨h.idx, h.ht0, hok, h.le, h.low⟩
    · exact (p0.append_left _).trans (perm_append_comm_assoc ..)
    · exact (p1.append_left _).trans (perm_append_comm_assoc ..)
  | false =>
    refine ⟨?_, rest ++ d.ht1.entries, ?_, ?_⟩
    · cases h with
      | fresh g0 _ _ =>
        have := h0.table_eq
        rw [g0] at this
        cases this
      | stable _ h1 idx => exact .stable hok h1 idx
      | rehashing r h =>
        refine .rehashing r ⟨h.idx, hok, h.ht1, h.le, ?_⟩
        intro j hj
        show (d.ht0.setChain i c').buckets[j]? = some []
        rw [h0.buckets_setChain, getElem?_set]
        have hlow := h.low j hj
        by_cases hij : i = j
        · subst hij
          have hc' : d.ht0.buckets[i]? = some c := Dictht.chain_eq_ok_iff.1 hc
          rw [hlow, Option.some.injEq] at hc'
          have hlen : i < d.ht0.buckets.length := (List.getElem?_eq_some_iff.1 hlow).1
          simp [hlen, he rfl (by simp [Dict.isRehashing, h.idx]) hc'.symm]
        · simp [hij, hlow]
    · rw [← append_assoc]
      exact p0.append_right _
    rw [← append_assoc]
    exact p1.append_right _

end Dict.Shape

/-! ## Rehashing -/

/-- A counter that is lowered once for a bucket and stays an `int`: it stops at 0, or it is far
enough from the lowest number. -/
def Room (size r : Nat) (n : Int) : Prop :=
  n < 2 ^ 31 ∧ (0 ≤ n ∨ -2 ^ 31 + ((size - r : Nat) : Int) ≤ n)

theorem Room.pred (h : Room size r n) (hn : n ≠ 0) (hr : r < size) :
    checkInt (n - 1) = .ok (n - 1) ∧ Room size (r + 1) (n - 1) := by
  obtain ⟨h1, h2⟩ := h
  constructor
  · have : inInt (n - 1) := by
      simp only [inInt, decide_eq_true_eq]
      omega
    simp [checkInt, this]
  · constructor <;> omega

theorem Room.mono (h : Room size r n) (hr : r ≤ r') : Room size r' n := by
  obtain ⟨h1, h2⟩ := h
  exact ⟨h1, by omega⟩

theorem skipEmpty_spec {ht : Dictht K V} (h : ht.Ok hash) (hne : ht.entries ≠ []) (fuel : Nat)
    {ev : Int} (hf : ht.size - r < fuel) (low : ∀ i < r, ht.buckets[i]? = some [])
    (hroom : Room ht.size r ev) (hev : ev ≠ 0) :
    ∃ r' o, skipEmpty ht fuel r ev = .ok (r', o) ∧ r ≤ r' ∧ r' ≤ ht.size ∧
      (∀ i < r', ht.buckets[i]? = some []) ∧ ∀ ev', o = some ev' → Room ht.size r' ev' ∧ ev' ≠ 0 ∧
        ∃ c, ht.chain r' = .ok c ∧ c ≠ [] := by
  induction fuel generalizing r ev with
  | zero => omega
  | succ fuel ih =>
    have hr : r < ht.buckets.length := Lib.lt_length_of_flatten_ne_nil hne low
    have hc := Dictht.chain_eq_ok_iff.2 (getElem?_eq_getElem hr)
    rw [← h.size_eq] at hr
    unfold skipEmpty
    rw [hc, ok_bind]
    by_cases hempty : ht.buckets[r] = []
    · obtain ⟨hcheck, hroom'⟩ := hroom.pred hev hr
      have low' : ∀ i < r + 1, ht.buckets[i]? = some [] := by
        intro i hi
        rcases Nat.lt_succ_iff_lt_or_eq.1 hi with hi | rfl
        · exact low i hi
        · rw [getElem?_eq_getElem (h.size_eq ▸ hr), hempty]
      rw [if_pos (by simp [hempty]), hcheck, ok_bind]
      split
      · exact ⟨r + 1, none, rfl, by omega, by omega, low', fun _ h => by cases h⟩
      rename_i h0
      obtain ⟨r', o, heq, hle, hle', hlow, ho⟩ := ih (by omega) low' hroom' h0
      exact ⟨r', o, heq, by omega, hle', hlow, ho⟩
    rw [if_neg (by simpa using hempty)]
    refine ⟨r, some ev, rfl, le_rfl, hr.le, low, ?_⟩
    intro ev' he
    cases he
    exact ⟨hroom, hev, _, hc, hempty⟩

theorem moveChain_spec (c : List (DictEntry K V)) (h : d.ht1.Ok hash) :
    ∃ ht1, moveChain hash d c = .ok
      { d with ht0 := { d.ht0 with used := d.ht0.used - c.length }, ht1 := ht1 } ∧
      ht1.Ok hash ∧ ht1.entries.Perm (c ++ d.ht1.entries) := by
  induction c generalizing d with
  | nil => exact ⟨d.ht1, rfl, h, .refl _⟩
  | cons e c ih =>
    obtain ⟨ht', hpush, hok, hperm, _⟩ := h.push e
    obtain ⟨ht1, heq, hok', hperm'⟩ :=
      ih (d := { d with ht0 := { d.ht0 with used := d.ht0.used - 1 }, ht1 := ht' }) hok
    refine ⟨ht1, ?_, hok', ?_⟩
    · unfold moveChain at heq ⊢
      rw [foldlM_cons, hpush, ok_bind, pure_eq_ok, ok_bind, heq]
      simp only [length_cons, Nat.sub_sub, add_comm]
    · exact hperm'.trans ((hperm.append_left c).trans perm_middle)

theorem Rehashing.moved (h : Rehashing hash d r)
    {c : List (DictEntry K V)} (hc : d.ht0.chain r' = .ok c)
    (hlow : ∀ i < r', d.ht0.buckets[i]? = some []) {ht1 : Dictht K V} (h1 : ht1.Ok hash)
    (hperm : ht1.entries.Perm (c ++ d.ht1.entries)) :
    let d' : Dict K V := { d with
      ht0 := { d.ht0.setChain r' [] with used := d.ht0.used - c.length }
      ht1 := ht1
      rehashidx := some (r' + 1) }
    Rehashing hash d' (r' + 1) ∧ d'.entries.Perm d.entries := by
  have hget := Dictht.chain_eq_ok_iff.1 hc
  have hlen : r' < d.ht0.buckets.length := (List.getElem?_eq_some_iff.1 hget).1
  have hle := h.ht0.length_le_used hc
  obtain ⟨hok, rest, p0, p1⟩ := h.ht0.setChain hc [] (u := d.ht0.used - c.length)
    (by simp) (by simp; omega)
  refine ⟨⟨rfl, hok, h1, ?_, ?_⟩, ?_⟩
  · show r' + 1 ≤ d.ht0.size
    rw [h.ht0.size_eq]
    exact hlen
  · intro i hi
    show (d.ht0.setChain r' []).buckets[i]? = some []
    rw [h.ht0.buckets_setChain, getElem?_set]
    rcases Nat.lt_succ_iff_lt_or_eq.1 hi with hi | rfl
    · simp [show r' ≠ i by omega, hlow i hi]
    · simp [hlen]
  -- the chain moves from the entries of one table to those of the other
  calc ((d.ht0.setChain r' []).entries ++ ht1.entries).Perm (rest ++ (c ++ d.ht1.entries)) :=
        p1.append hperm
    List.Perm _ ((c ++ rest) ++ d.ht1.entries) := by
        rw [← append_assoc]
        exact perm_append_comm.append_right _
    List.Perm _ (d.ht0.entries ++ d.ht1.entries) := (p0.append_right _).symm

/-- The loop of `dictRehash`: no bucket outside the table is read, no counter overflows, and the
fuel is enough. -/
theorem rehashLoop_spec (fuel : Nat) (n ev : Int)
    (h : Rehashing hash d r) (hf : d.ht0.used ≤ fuel) (hn : Room d.ht0.size r n)
    (hev : Room d.ht0.size r ev) (h0 : n ≠ 0 → ev ≠ 0) :
    ∃ d' b, rehashLoop hash fuel n ev d = .ok (d', b) ∧ (∃ r', Rehashing hash d' r') ∧
      d'.entries.Perm d.entries ∧ d'.iterators = d.iterators := by
  induction fuel generalizing n ev d r with
  | zero =>
    have hu : d.ht0.used = 0 := by omega
    exact ⟨d, false, by simp [rehashLoop, hu], ⟨r, h⟩, .refl _, rfl⟩
  | succ fuel ih =>
    unfold rehashLoop
    by_cases hgo : n ≠ 0 ∧ d.ht0.used ≠ 0
    · have hne : d.ht0.entries ≠ [] := by
        have := h.ht0.used_eq
        intro he
        simp [he] at this
        exact hgo.2 this
      have hr : r < d.ht0.size := by
        rw [h.ht0.size_eq]
        exact Lib.lt_length_of_flatten_ne_nil hne h.low
      obtain ⟨hcheck, hn'⟩ := hn.pred hgo.1 hr
      obtain ⟨r', o, hskip, hle, hle', hlow, ho⟩ :=
        skipEmpty_spec h.ht0 hne (d.ht0.size - r + 1) (by omega) h.low hev (h0 hgo.1)
      rw [if_pos hgo, hcheck, ok_bind, h.idx]
      simp only [not_le.2 hr, if_false, hskip, ok_bind]
      obtain _ | ev' := o
      · exact ⟨_, true, rfl, ⟨r', rfl, h.ht0, h.ht1, hle', hlow⟩, .refl _, rfl⟩
      obtain ⟨hev', hev0, c, hc, hcne⟩ := ho ev' rfl
      obtain ⟨ht1, hmove, hok1, hperm⟩ := moveChain_spec c (d := d) h.ht1
      obtain ⟨hre, hent⟩ := h.moved hc hlow hok1 hperm
      simp only [hc, ok_bind, hmove]
      have hpos : 0 < c.length := length_pos_of_ne_nil hcne
      obtain ⟨d', b, heq, hex, hp, hit⟩ := ih _ _ hre
        (by show d.ht0.used - c.length ≤ fuel; omega)
        (hn'.mono (show r + 1 ≤ r' + 1 by omega)) (hev'.mono (by omega)) (fun _ => hev0)
      exact ⟨d', b, heq, hex, hp.trans hent, hit⟩
    rw [if_neg hgo]
    exact ⟨d, false, rfl, ⟨r, h⟩, .refl _, rfl⟩

/-- When `dictRehash d n` stays in the range of `int`. -/
def RehashFits (d : Dict K V) (n : Int) : Prop :=
  inInt (n * 10) ∧ (n < 0 → d.isRehashing → -2 ^ 31 + (d.ht0.size : Int) ≤ n * 10)

instance (d : Dict K V) (n : Int) : Decidable (RehashFits d n) := by
  unfold RehashFits
  infer_instance

theorem dictRehash_spec (h : d.Shape hash) (hn : RehashFits d n) :
    ∃ d' b, dictRehash hash d n = .ok (d', b) ∧ d'.Shape hash ∧ d'.entries.Perm d.entries ∧
      d'.iterators = d.iterators := by
  have hcheck : checkInt (n * 10) = .ok (n * 10) := by simp [checkInt, hn.1]
  have hint : -2147483648 ≤ n * 10 ∧ n * 10 ≤ 2147483647 := by simpa [inInt] using hn.1
  unfold dictRehash
  rw [hcheck, ok_bind]
  by_cases hre : d.isRehashing
  · rw [if_neg (by simp [hre])]
    cases h with
    | fresh _ _ idx => simp [Dict.isRehashing, idx] at hre
    | stable _ _ idx => simp [Dict.isRehashing, idx] at hre
    | rehashing r h =>
      have hlow : n < 0 → -2 ^ 31 + (d.ht0.size : Int) ≤ n * 10 := fun hneg => hn.2 hneg hre
      obtain ⟨d', b, heq, ⟨r', h'⟩, hperm, hit⟩ := rehashLoop_spec d.ht0.used n (n * 10)
        h le_rfl ⟨by omega, by omega⟩ ⟨by omega, by omega⟩ (by omega)
      rw [heq, ok_bind]
      by_cases hb : b = true
      · exact ⟨d', true, by simp [hb], .rehashing r' h', hperm, hit⟩
      by_cases hu : d'.ht0.used = 0
      · refine ⟨{ d' with ht0 := d'.ht1, ht1 := dictReset, rehashidx := none }, false, ?_,
          .stable h'.ht1 rfl rfl, ?_, hit⟩
        · simp [hb, hu]
        have hnil : d'.ht0.entries = [] := by
          apply length_eq_zero_iff.1
          rw [← h'.ht0.used_eq, hu]
        have : d'.entries = d'.ht1.entries := by simp [Dict.entries, hnil]
        show (d'.ht1.entries ++ []).Perm _
        rw [append_nil, ← this]
        exact hperm
      · exact ⟨d', true, by simp [hb, hu], .rehashing r' h', hperm, hit⟩
  rw [if_pos (by simp [hre])]
  exact ⟨d, false, rfl, h, .refl _, rfl⟩

theorem dictRehashStep_spec (h : d.Shape hash) :
    ∃ d', dictRehashStep hash d = .ok d' ∧ d'.Shape hash ∧ d'.entries.Perm d.entries := by
  unfold dictRehashStep
  by_cases hre : d.isRehashing
  · rw [if_pos hre]
    by_cases hit : d.iterators = 0
    · obtain ⟨d', b, heq, hs, hp, _⟩ := dictRehash_spec (n := 1) h ⟨by decide, by omega⟩
      exact ⟨d', by simp [hit, heq], hs, hp⟩
    · exact ⟨d, by simp [hit], h, .refl _⟩
  · exact ⟨d, by simp [hre], h, .refl _⟩

/-! ## Growing -/

theorem dictNextPower_spec (h : size ≤ 2 ^ 60) :
    size ≤ dictNextPower size ∧ ∃ j ≤ 60, dictNextPower size = 2 ^ j := by
  have go (fuel j : Nat) (hj : j + fuel ≥ 61) (hj' : j ≤ 60) :
      size ≤ dictNextPower.double size fuel (2 ^ j) ∧
        ∃ i ≤ 60, dictNextPower.double size fuel (2 ^ j) = 2 ^ i := by
    induction fuel generalizing j with
    | zero => omega
    | succ fuel ih =>
      unfold dictNextPower.double
      split
      · rename_i hi
        exact ⟨hi, j, hj', rfl⟩
      rename_i hi
      rw [← pow_succ]
      have : j ≠ 60 := by
        rintro rfl
        exact hi h
      exact ih (j + 1) (by omega) (by omega)
  unfold dictNextPower
  rw [if_neg (by omega)]
  exact go 61 2 (by omega) (by omega)

theorem zcallocCells_two_pow (h : j ≤ 60) : zcallocCells (2 ^ j) = 2 ^ j := by
  have hle : 2 ^ j ≤ 2 ^ 60 := Nat.pow_le_pow_right (by omega) h
  unfold zcallocCells
  rw [Nat.mod_eq_of_lt (by omega), Nat.mul_div_cancel _ (by omega)]

/-- When `dictExpand d size` asks for no more memory than it says. -/
def ExpandFits (d : Dict K V) (size : Nat) : Prop :=
  d.isRehashing = false → d.ht0.used ≤ size → size ≤ 2 ^ 60

instance (d : Dict K V) (size : Nat) : Decidable (ExpandFits d size) := by
  unfold ExpandFits
  infer_instance

theorem dictExpand_spec (h : d.Shape hash) (hf : ExpandFits d size) :
    (dictExpand d size).1.Shape hash ∧ (dictExpand d size).1.entries = d.entries := by
  unfold dictExpand
  by_cases hno : d.isRehashing ∨ d.ht0.used > size
  · rw [if_pos hno]
    exact ⟨h, rfl⟩
  obtain ⟨hre, hused⟩ := not_or.1 hno
  obtain ⟨_, j, hj, hpow⟩ := dictNextPower_spec (hf (by simpa using hre) (by omega))
  have hnew : Dictht.Ok (V := V) hash _ := Dictht.ok_replicate j
  simp only [if_neg hno, hpow, zcallocCells_two_pow hj]
  split
  · exact ⟨h, rfl⟩
  have hnil : Dictht.entries ⟨some (replicate (2 ^ j) []), 2 ^ j, 2 ^ j - 1, 0⟩ =
      ([] : List (DictEntry K V)) := by simp [Dictht.entries, Dictht.buckets]
  cases h with
  | fresh h0 h1 idx =>
    rw [if_pos (by simp [h0, dictReset])]
    refine ⟨.stable hnew h1 idx, ?_⟩
    simp [Dict.entries, hnil, h0]
  | stable h0 h1 idx =>
    rw [if_neg (by simp [h0.table_eq])]
    refine ⟨.rehashing 0 ⟨rfl, h0, hnew, Nat.zero_le _, fun i hi => by omega⟩, ?_⟩
    simp [Dict.entries, hnil, h1]
  | rehashing r h => simp [Dict.isRehashing, h.idx] at hre

theorem dictExpand_accepts (hre : d.isRehashing = false)
    (hu : d.ht0.used ≤ size) (hs : dictNextPower size ≠ d.ht0.size) :
    (dictExpand d size).2 = true ∧ (dictExpand d size).1.ht0.table ≠ none := by
  unfold dictExpand
  simp only [hre, not_lt.2 hu, hs, Bool.false_eq_true, false_or, if_false]
  by_cases ht : d.ht0.table.isNone
  · simp [ht]
  simp only [ht]
  simpa using ht

theorem dictExpandIfNeeded_spec (canResize : Bool) (h : d.Shape hash)
    (hf : d.entries.length * 2 ≤ 2 ^ 60) :
    ∃ d', dictExpandIfNeeded canResize d = (d', true) ∧ d'.Shape hash ∧ d'.ht0.Ok hash ∧
      d'.entries = d.entries := by
  -- a dict with a table in `ht[0]` is not a fresh one
  have table {d : Dict K V} (h : d.Shape hash) (ht : d.ht0.table ≠ none) : d.ht0.Ok hash := by
    cases h with
    | fresh h0 _ _ => simp [h0, dictReset] at ht
    | stable h0 _ _ => exact h0
    | rehashing r h => exact h.ht0
  have grow {size : Nat} (hre : d.isRehashing = false) (hs : d.ht0.used ≤ size)
      (hle : size ≤ 2 ^ 60) (hne : dictNextPower size ≠ d.ht0.size) :
      ∃ d', dictExpand d size = (d', true) ∧ d'.Shape hash ∧ d'.ht0.Ok hash ∧
        d'.entries = d.entries := by
    obtain ⟨hok, ht⟩ := dictExpand_accepts hre hs hne
    obtain ⟨hshape, hent⟩ := dictExpand_spec h fun _ _ => hle
    exact ⟨_, Prod.ext rfl hok, hshape, table hshape ht, hent⟩
  have hused := h.used_eq
  unfold dictExpandIfNeeded
  cases h with
  | fresh h0 h1 idx =>
    have hre : d.isRehashing = false := by simp [Dict.isRehashing, idx]
    have hsize : d.ht0.size = 0 := by simp [h0, dictReset]
    rw [if_neg (by simp [hre]), if_pos hsize]
    exact grow hre (by simp [h0]) (by omega) (by rw [hsize]; decide)
  | stable h0 h1 idx =>
    have hre : d.isRehashing = false := by simp [Dict.isRehashing, idx]
    have hpos := h0.size_pos
    rw [if_neg (by simp [hre]), if_neg (by omega)]
    split
    · have hle : d.ht0.used * 2 ≤ 2 ^ 60 := by omega
      have := (dictNextPower_spec hle).1
      exact grow hre (by omega) hle (by omega)
    · exact ⟨d, rfl, .stable h0 h1 idx, h0, rfl⟩
  | rehashing r h =>
    rw [if_pos (by simp [Dict.isRehashing, h.idx])]
    exact ⟨d, rfl, .rehashing r h, h.ht0, rfl⟩

/-! ## Searching -/

/-- `ref` is the place of `e`. -/
def Dict.At (d : Dict K V) (ref : EntryRef) (e : DictEntry K V) : Prop :=
  (ref.second → d.isRehashing) ∧
    ∃ ch, (d.ht ref.second).chain ref.idx = .ok ch ∧ ch[ref.pos]? = some e

theorem Dict.At.deref_eq (h : d.At ref e) : d.deref ref = .ok e := by
  obtain ⟨_, c, hc, he⟩ := h
  unfold Dict.deref
  rw [hc, ok_bind, he]
  rfl

variable [DecidableEq K]

theorem findIdx?_key_spec (ch : List (DictEntry K V)) (k : K) :
    (ch.findIdx? (·.key = k) = none ∧ ∀ e ∈ ch, e.key ≠ k) ∨
      ∃ pos e, ch.findIdx? (·.key = k) = some pos ∧ ch[pos]? = some e ∧ e.key = k := by
  cases hf : ch.findIdx? (·.key = k) with
  | none =>
    left
    exact ⟨rfl, fun e he => by simpa using findIdx?_eq_none_iff.1 hf e he⟩
  | some pos =>
    right
    obtain ⟨hlt, hkey, _⟩ := findIdx?_eq_some_iff_getElem.1 hf
    exact ⟨pos, ch[pos], rfl, getElem?_eq_getElem hlt, by simpa using hkey⟩

theorem search_spec (h : d.Shape hash) (h0 : d.ht0.Ok hash) (k : K) :
    (d.search hash k = .ok none ∧ ∀ e ∈ d.entries, e.key ≠ k) ∨
      ∃ ref e, d.search hash k = .ok (some ref) ∧ d.At ref e ∧ e.key = k := by
  obtain ⟨c, hc⟩ := h0.exists_chain k
  unfold Dict.search
  simp only [hc, ok_bind]
  rcases findIdx?_key_spec c k with ⟨hf, hnone⟩ | ⟨pos, e, hf, he, hk⟩
  · simp only [hf]
    have hno0 : ∀ e ∈ d.ht0.entries, e.key ≠ k := fun e he hk =>
      hnone e ((h0.mem_chain_iff hc hk).2 he) hk
    by_cases hre : d.isRehashing
    · have h1 : d.ht1.Ok hash := h.ht_ok h0 (s := true) fun _ => hre
      obtain ⟨c1, hc1⟩ := h1.exists_chain k
      simp only [hre, Bool.not_true, Bool.false_eq_true, if_false, hc1, ok_bind, pure_eq_ok]
      rcases findIdx?_key_spec c1 k with ⟨hf1, hnone1⟩ | ⟨pos, e, hf1, he, hk⟩
      · left
        refine ⟨by simp [hf1], ?_⟩
        intro e he hk
        rcases mem_append.1 he with he | he
        · exact hno0 e he hk
        · exact hnone1 e ((h1.mem_chain_iff hc1 hk).2 he) hk
      right
      exact ⟨⟨true, hash k &&& d.ht1.sizemask, pos⟩, e, by simp [hf1],
        ⟨fun _ => hre, c1, hc1, he⟩, hk⟩
    left
    have hnil : d.ht1.entries = [] := by
      cases h with
      | fresh _ h1 _ => simp [h1]
      | stable _ h1 _ => simp [h1]
      | rehashing r h => simp [Dict.isRehashing, h.idx] at hre
    refine ⟨by simp [hre], ?_⟩
    simpa [Dict.entries, hnil] using hno0
  right
  exact ⟨⟨false, hash k &&& d.ht0.sizemask, pos⟩, e, by simp [hf], ⟨by simp, c, hc, he⟩, hk⟩

end UfsRedis.Keyspace
