import UfsRedis.Keyspace.DictShape

/-!
# The hash table is a finite map

What each call of `src/dict.c` does to the entries, the finite map that the entries are, and runs of
calls. `DictState.step_refines` is the step and `run_refines_finmap` the run: while the numbers of
buckets fit in memory, a dict returns what a finite map returns and stores its pairs.

The bound on the number of buckets is needed. `dictExpand` multiplies the number of buckets by the
size of a pointer in 64 bits, so a number from 2 ^ 61 on gives a table that is shorter than its
`size`.
-/

namespace UfsRedis.Keyspace

open List Option Finmap

variable {K V : Type} {hash : K → Nat} {d : Dict K V} {e : DictEntry K V}
  {m : Finmap fun _ : K => Option V}

/-! ## Calls and entries -/

section

variable {ref : EntryRef}

theorem Dict.Shape.ht0_ok (h : d.Shape hash) (hne : d.entries ≠ []) : d.ht0.Ok hash := by
  cases h with
  | fresh h0 h1 _ => simp [Dict.entries, h0, h1] at hne
  | stable h0 _ _ => exact h0
  | rehashing r h => exact h.ht0

theorem dictRehashStep_of_ne_nil (h : d.Shape hash) (hne : d.entries.length ≠ 0) :
    ∃ d', dictRehashStep hash d = .ok d' ∧ d'.Shape hash ∧ d'.ht0.Ok hash ∧
      d'.entries.Perm d.entries := by
  obtain ⟨d', hstep, h', hperm⟩ := dictRehashStep_spec h
  refine ⟨d', hstep, h', h'.ht0_ok ?_, hperm⟩
  intro hnil
  rw [← hperm.length_eq, hnil] at hne
  exact hne rfl

theorem Dict.Shape.idx_eq (h : d.Shape hash) (h0 : d.ht0.Ok hash) (hat : d.At ref e) :
    hash e.key &&& (d.ht ref.second).sizemask = ref.idx := by
  obtain ⟨hs, c, hc, he⟩ := hat
  exact (h.ht_ok h0 hs).placed _ c (Dictht.chain_eq_ok_iff.1 hc) e (mem_of_getElem? he)

/-- All entries of the chain of an entry are in the bucket of their hash. -/
theorem Dict.Shape.chain_placed (h : d.Shape hash) (h0 : d.ht0.Ok hash) {s : Bool} {i : Nat}
    (hs : s → d.isRehashing) {c : List (DictEntry K V)} (hc : (d.ht s).chain i = .ok c) :
    ∀ a ∈ c, hash a.key &&& (d.ht s).sizemask = i :=
  (h.ht_ok h0 hs).placed i c (Dictht.chain_eq_ok_iff.1 hc)

theorem Dict.At.mem_entries (h : d.At ref e) : e ∈ d.entries := by
  obtain ⟨_, c, hc, he⟩ := h
  have hmem : e ∈ (d.ht ref.second).entries :=
    Lib.mem_flatten_iff_getElem?.2 ⟨_, c, Dictht.chain_eq_ok_iff.1 hc, mem_of_getElem? he⟩
  unfold Dict.entries Dict.ht at *
  split at hmem
  · exact mem_append_right _ hmem
  · exact mem_append_left _ hmem

theorem dictSetVal_spec (h : d.Shape hash) (h0 : d.ht0.Ok hash) (hat : d.At ref e) (val : V) :
    ∃ d' rest, dictSetVal d ref val = .ok d' ∧ d'.Shape hash ∧ d.entries.Perm (e :: rest) ∧
      d'.entries.Perm ({ e with v := some val } :: rest) := by
  have hderef := hat.deref_eq
  have hidx := h.idx_eq h0 hat
  obtain ⟨hs, c, hc, he⟩ := hat
  obtain ⟨hlt, hget⟩ := List.getElem?_eq_some_iff.1 he
  have hplaced := h.chain_placed h0 hs hc
  obtain ⟨hshape, rest, p0, p1⟩ := h.edit h0 (u := (d.ht ref.second).used)
    hs hc (c.set ref.pos { e with v := some val })
    (fun a ha => by
      rcases mem_or_eq_of_mem_set ha with ha | rfl
      · exact hplaced a ha
      · exact hidx)
    (by rw [length_set]) (fun _ _ hnil => by rw [hnil]; rfl)
  refine ⟨_, c.eraseIdx ref.pos ++ rest, ?_, hshape, ?_, ?_⟩
  · unfold dictSetVal
    simp only [hc, ok_bind, hderef]
    rfl
  · have := getElem_cons_eraseIdx_perm hlt
    rw [hget] at this
    exact p0.trans (this.symm.append_right rest)
  · exact p1.trans ((set_perm_cons_eraseIdx hlt _).append_right rest)

/-- A new entry in front of a chain: in `ht[1]` while the dict is rehashed. -/
theorem Dict.Shape.push (h : d.Shape hash) (h0 : d.ht0.Ok hash) (k : K) :
    ∃ ht, (d.ht d.isRehashing).push (hash k &&& (d.ht d.isRehashing).sizemask) ⟨k, none⟩ = .ok ht ∧
      (d.setHt d.isRehashing ht).Shape hash ∧ (d.setHt d.isRehashing ht).At
        ⟨d.isRehashing, hash k &&& (d.ht d.isRehashing).sizemask, 0⟩ ⟨k, none⟩ ∧
      (d.setHt d.isRehashing ht).entries.Perm (⟨k, none⟩ :: d.entries) := by
  have hs : d.isRehashing → d.isRehashing := id
  have hok := h.ht_ok h0 hs
  obtain ⟨c, hc⟩ := hok.exists_chain k
  have hplaced := h.chain_placed h0 hs hc
  obtain ⟨hshape, rest, q0, q1⟩ := h.edit h0 (u := (d.ht d.isRehashing).used + 1)
    hs hc (⟨k, none⟩ :: c)
    (fun a ha => by
      rcases mem_cons.1 ha with rfl | ha
      · rfl
      · exact hplaced a ha)
    (by rw [length_cons]; omega) (fun hf ht => by rw [hf] at ht; cases ht)
  refine ⟨_, ?_, hshape, ⟨?_, ⟨k, none⟩ :: c, ?_, rfl⟩, q1.trans (q0.symm.cons _)⟩
  · unfold Dictht.push
    rw [hc, ok_bind]
    rfl
  · simp
  rw [Dict.ht_setHt]
  exact hok.chain_setChain hc _

variable [DecidableEq K]

theorem dictAddRaw_spec (canResize : Bool) (h : d.Shape hash)
    (hf : d.entries.length * 2 ≤ 2 ^ 60) (k : K) : ∃ d' : Dict K V, d'.Shape hash ∧ d'.ht0.Ok hash ∧
      ((∃ ref, dictAddRaw hash canResize d k = .ok (d', some ref, none) ∧ d'.At ref ⟨k, none⟩ ∧
          d'.entries.Perm (⟨k, none⟩ :: d.entries) ∧ ∀ e ∈ d.entries, e.key ≠ k) ∨
        ∃ ref e, dictAddRaw hash canResize d k = .ok (d', none, some ref) ∧ d'.At ref e ∧
          e.key = k ∧ d'.entries.Perm d.entries) := by
  obtain ⟨d1, hstep, h1, p1⟩ := dictRehashStep_spec h
  obtain ⟨d2, hexp, h2, h0, e2⟩ := dictExpandIfNeeded_spec canResize h1 (by rwa [p1.length_eq])
  have p2 : d2.entries.Perm d.entries := e2 ▸ p1
  unfold dictAddRaw dictKeyIndex
  simp only [hstep, ok_bind, hexp, Bool.not_true, Bool.false_eq_true, if_false]
  rcases search_spec h2 h0 k with ⟨hsearch, hno⟩ | ⟨ref, e, hsearch, hat, hk⟩
  · obtain ⟨ht, hpush, hshape, hat, hperm⟩ := h2.push h0 k
    have hne : (d2.setHt d2.isRehashing ht).entries ≠ [] := by
      intro hnil
      rw [hnil] at hperm
      cases hperm.length_eq
    refine ⟨_, hshape, hshape.ht0_ok hne, .inl ⟨_, ?_, hat, hperm.trans (p2.cons _), ?_⟩⟩
    · simp [hsearch, hpush]
    · exact fun e he => hno e (p2.mem_iff.2 he)
  refine ⟨d2, h2, h0, .inr ⟨ref, e, ?_, hat, hk, p2⟩⟩
  simp [hsearch]

theorem dictGenericDelete_spec (h : d.Shape hash) (k : K) : ∃ d' : Dict K V, d'.Shape hash ∧
      ((dictGenericDelete hash d k = .ok (d', none) ∧ d'.entries.Perm d.entries ∧
          ∀ e ∈ d.entries, e.key ≠ k) ∨
        ∃ e, dictGenericDelete hash d k = .ok (d', some e) ∧ e.key = k ∧
          d.entries.Perm (e :: d'.entries)) := by
  unfold dictGenericDelete
  have hused := h.used_eq
  by_cases hempty : d.ht0.used = 0 ∧ d.ht1.used = 0
  · have hnil : d.entries = [] := length_eq_zero_iff.1 (by omega)
    rw [if_pos hempty]
    exact ⟨d, h, .inl ⟨rfl, .refl _, by simp [hnil]⟩⟩
  obtain ⟨d1, hstep, h1, h0, p1⟩ := dictRehashStep_of_ne_nil h (by omega)
  rw [if_neg hempty]
  simp only [hstep, ok_bind]
  rcases search_spec h1 h0 k with ⟨hsearch, hno⟩ | ⟨ref, e, hsearch, hat, hk⟩
  · refine ⟨d1, h1, .inl ⟨by simp only [hsearch, ok_bind, pure_eq_ok], p1, ?_⟩⟩
    exact fun e he => hno e (p1.mem_iff.2 he)
  have hderef := hat.deref_eq
  obtain ⟨hs, c, hc, he⟩ := hat
  obtain ⟨hlt, hget⟩ := List.getElem?_eq_some_iff.1 he
  have hplaced := h1.chain_placed h0 hs hc
  have hle := (h1.ht_ok h0 hs).length_le_used hc
  obtain ⟨hshape, rest, q0, q1⟩ := h1.edit h0 (u := (d1.ht ref.second).used - 1)
    hs hc (c.eraseIdx ref.pos) (fun a ha => hplaced a (mem_of_mem_eraseIdx ha))
    (by rw [length_eraseIdx_of_lt hlt]; omega) (fun _ _ hnil => by rw [hnil]; rfl)
  refine ⟨_, hshape, .inr ⟨e, ?_, hk, ?_⟩⟩
  · simp [hsearch, hderef, hc]
  have hcons := getElem_cons_eraseIdx_perm hlt
  rw [hget] at hcons
  calc d.entries.Perm (c ++ rest) := p1.symm.trans q0
    List.Perm _ (e :: (c.eraseIdx ref.pos ++ rest)) := hcons.symm.append_right rest
    List.Perm _ _ := q1.symm.cons e

theorem dictFind_spec (h : d.Shape hash) (k : K) :
    ∃ d' : Dict K V, d'.Shape hash ∧ d'.entries.Perm d.entries ∧
      ((dictFind hash d k = .ok (d', none) ∧ ∀ e ∈ d.entries, e.key ≠ k) ∨
        ∃ e ∈ d.entries, dictFind hash d k = .ok (d', some e) ∧ e.key = k) := by
  unfold dictFind
  have hused := h.used_eq
  by_cases hempty : d.ht0.used + d.ht1.used = 0
  · have hnil : d.entries = [] := length_eq_zero_iff.1 (by omega)
    rw [if_pos hempty]
    exact ⟨d, h, .refl _, .inl ⟨rfl, by simp [hnil]⟩⟩
  obtain ⟨d1, hstep, h1, h0, p1⟩ := dictRehashStep_of_ne_nil h (by omega)
  rw [if_neg hempty]
  simp only [hstep, ok_bind]
  refine ⟨d1, h1, p1, ?_⟩
  rcases search_spec h1 h0 k with ⟨hsearch, hno⟩ | ⟨ref, e, hsearch, hat, hk⟩
  · left
    exact ⟨by simp only [hsearch, ok_bind, pure_eq_ok], fun e he => hno e (p1.mem_iff.2 he)⟩
  right
  refine ⟨e, p1.mem_iff.1 hat.mem_entries, ?_, hk⟩
  simp [hsearch, hat.deref_eq]

end

/-! ## The finite map -/

def DictEntry.pair (e : DictEntry K V) : Sigma fun _ : K => Option V := ⟨e.key, e.v⟩

/-- `d` stores the pairs of `m`. -/
def Dict.Represents (d : Dict K V) (m : Finmap fun _ : K => Option V) : Prop :=
  m.entries = (d.entries.map DictEntry.pair : List _)

namespace Dict.Represents

variable {d d' : Dict K V} {m : Finmap fun _ : K => Option V} {e : DictEntry K V} {k : K}
  {v : Option V} {rest : List (DictEntry K V)}

theorem create : Represents (dictCreate : Dict K V) ∅ := rfl

section

variable (h : d.Represents m)
include h

theorem perm (hp : d'.entries.Perm d.entries) : d'.Represents m := by
  unfold Represents at *
  rw [h]
  exact Multiset.coe_eq_coe.2 (hp.map _).symm

theorem entries_eq_cons (hp : d.entries.Perm (e :: rest)) :
    m.entries = ⟨e.key, e.v⟩ ::ₘ (rest.map DictEntry.pair : List _) := by
  rw [h, Multiset.cons_coe]
  exact Multiset.coe_eq_coe.2 (hp.map _)

theorem card_eq : m.keys.card = d.entries.length := by
  rw [Lib.card_keys, h, Multiset.coe_card, length_map]

theorem nodup : (d.entries.map (·.key)).Nodup := by
  have hnd := Multiset.nodup_keys.2 m.nodupKeys
  rw [h] at hnd
  simpa [Multiset.keys, DictEntry.pair, Function.comp_def] using hnd

end

variable [DecidableEq K]

variable (h : d.Represents m)
include h

theorem lookup_of_mem (he : e ∈ d.entries) : m.lookup e.key = some e.v := by
  apply Finmap.lookup_eq_some_iff.2
  rw [h]
  exact mem_map_of_mem (f := DictEntry.pair) he

theorem mem_of_lookup (hl : m.lookup k = some v) : (⟨k, v⟩ : DictEntry K V) ∈ d.entries := by
  have hmem := Finmap.lookup_eq_some_iff.1 hl
  rw [h] at hmem
  obtain ⟨e, he, hp⟩ := mem_map.1 hmem
  cases hp
  exact he

theorem lookup_of_forall_ne (hno : ∀ e ∈ d.entries, e.key ≠ k) : m.lookup k = none := by
  rcases hl : m.lookup k with _ | v
  · rfl
  exact absurd rfl (hno _ (h.mem_of_lookup hl))

theorem insert_new (hno : ∀ e ∈ d.entries, e.key ≠ k)
    (hp : d'.entries.Perm (⟨k, v⟩ :: d.entries)) : d'.Represents (m.insert k v) := by
  have hk : k ∉ m := lookup_eq_none.1 (h.lookup_of_forall_ne hno)
  unfold Represents
  rw [entries_insert_of_notMem hk, h, Multiset.cons_coe]
  exact Multiset.coe_eq_coe.2 (hp.map DictEntry.pair).symm

theorem insert_old (hp : d.entries.Perm (e :: rest))
    (hp' : d'.entries.Perm (⟨e.key, v⟩ :: rest)) : d'.Represents (m.insert e.key v) := by
  unfold Represents
  rw [Lib.entries_insert (h.entries_eq_cons hp), Multiset.cons_coe]
  exact Multiset.coe_eq_coe.2 (hp'.map DictEntry.pair).symm

theorem erase (hp : d.entries.Perm (e :: d'.entries)) : d'.Represents (m.erase e.key) :=
  Lib.entries_erase (h.entries_eq_cons hp)

end Dict.Represents

/-! ## Calls and the finite map -/

section

variable [DecidableEq K]

section

variable (canResize : Bool) (h : d.Shape hash) (hm : d.Represents m)
  (hf : d.entries.length * 2 ≤ 2 ^ 60) (k : K)
include canResize h hm hf k

theorem dictAddRaw_setVal_spec (v : V) :
    ∃ d₁ d₂ : Dict K V, d₁.Shape hash ∧ d₂.Shape hash ∧ d₂.Represents (m.insert k (some v)) ∧
      ((k ∉ m ∧ ∃ ref, dictAddRaw hash canResize d k = .ok (d₁, some ref, none) ∧
          dictSetVal d₁ ref v = .ok d₂) ∨
        k ∈ m ∧ d₁.Represents m ∧ ∃ ref, dictAddRaw hash canResize d k = .ok (d₁, none, some ref) ∧
          dictSetVal d₁ ref v = .ok d₂) := by
  obtain ⟨d₁, h1, h0, ⟨ref, hraw, hat, hp, hno⟩ | ⟨ref, e, hraw, hat, hk, hp⟩⟩ :=
    dictAddRaw_spec canResize h hf k
  · obtain ⟨d₂, rest, hset, h2, q1, q2⟩ := dictSetVal_spec h1 h0 hat v
    -- the entries besides the new one are the old ones
    have hrest : rest.Perm d.entries := (q1.symm.trans hp).cons_inv
    have hk : k ∉ m := lookup_eq_none.1 (hm.lookup_of_forall_ne hno)
    exact ⟨d₁, d₂, h1, h2, hm.insert_new hno (q2.trans (hrest.cons _)), .inl ⟨hk, ref, hraw, hset⟩⟩
  obtain ⟨d₂, rest, hset, h2, q1, q2⟩ := dictSetVal_spec h1 h0 hat v
  have hm1 := hm.perm hp
  have hk' : k ∈ m := mem_iff.2 ⟨e.v, hk ▸ hm1.lookup_of_mem hat.mem_entries⟩
  subst hk
  exact ⟨d₁, d₂, h1, h2, hm1.insert_old q1 q2, .inr ⟨hk', hm1, ref, hraw, hset⟩⟩

theorem dictAdd_spec (v : V) :
    ∃ d', dictAdd hash canResize d k v = .ok (d', decide (k ∉ m)) ∧ d'.Shape hash ∧
      d'.Represents (if k ∈ m then m else m.insert k (some v)) := by
  obtain ⟨d1, d2, h1, h2, hm2, ⟨hk, ref, hraw, hset⟩ | ⟨hk, hm1, ref, hraw, hset⟩⟩ :=
    dictAddRaw_setVal_spec canResize h hm hf k v
  · exact ⟨d2, by simp [dictAdd, hraw, hset, hk], h2, by rwa [if_neg hk]⟩
  · exact ⟨d1, by simp [dictAdd, hraw, hk], h1, by rwa [if_pos hk]⟩

theorem dictReplace_spec (v : V) :
    ∃ d', dictReplace hash canResize d k v = .ok (d', decide (k ∉ m)) ∧ d'.Shape hash ∧
      d'.Represents (m.insert k (some v)) := by
  obtain ⟨d1, d2, h1, h2, hm2, ⟨hk, ref, hraw, hset⟩ | ⟨hk, hm1, ref, hraw, hset⟩⟩ :=
    dictAddRaw_setVal_spec canResize h hm hf k v
  · exact ⟨d2, by simp [dictReplace, hraw, hset, hk], h2, hm2⟩
  · exact ⟨d2, by simp [dictReplace, hraw, hset, hk], h2, hm2⟩

theorem dictAddOrFind_spec :
    ∃ d', dictAddOrFind hash canResize d k = .ok (d', some ⟨k, (m.lookup k).getD none⟩) ∧
      d'.Shape hash ∧ d'.Represents (if k ∈ m then m else m.insert k none) := by
  obtain ⟨d1, h1, h0, ⟨ref, hraw, hat, hp, hno⟩ | ⟨ref, e, hraw, hat, hk, hp⟩⟩ :=
    dictAddRaw_spec canResize h hf k
  · have hl := hm.lookup_of_forall_ne hno
    have hk : k ∉ m := lookup_eq_none.1 hl
    refine ⟨d1, by simp [dictAddOrFind, hraw, hat.deref_eq, hl], h1, ?_⟩
    rw [if_neg hk]
    exact hm.insert_new hno hp
  have hm1 := hm.perm hp
  have hl := hm1.lookup_of_mem hat.mem_entries
  subst hk
  refine ⟨d1, by simp [dictAddOrFind, hraw, hat.deref_eq, hl], h1, ?_⟩
  rwa [if_pos (show e.key ∈ m from mem_iff.2 ⟨e.v, hl⟩)]

end

variable (h : d.Shape hash) (hm : d.Represents m) (k : K)
include h hm k

theorem dictUnlink_spec :
    ∃ d', dictUnlink hash d k = .ok (d', (m.lookup k).map (⟨k, ·⟩)) ∧ d'.Shape hash ∧
      d'.Represents (m.erase k) := by
  obtain ⟨d', h', ⟨heq, hp, hno⟩ | ⟨e, heq, rfl, hp⟩⟩ := dictGenericDelete_spec h k
  · have hl := hm.lookup_of_forall_ne hno
    refine ⟨d', by simp [dictUnlink, heq, hl], h', ?_⟩
    have : m.erase k = m := by
      apply ext_lookup
      intro x
      by_cases hx : x = k
      · rw [hx, lookup_erase, hl]
      · rw [lookup_erase_ne hx]
    rw [this]
    exact hm.perm hp
  have hl := hm.lookup_of_mem (hp.mem_iff.2 mem_cons_self)
  exact ⟨d', by simp [dictUnlink, heq, hl], h', hm.erase hp⟩

theorem dictDelete_spec : ∃ d', dictDelete hash d k = .ok (d', decide (k ∈ m)) ∧ d'.Shape hash ∧
      d'.Represents (m.erase k) := by
  obtain ⟨d', heq, h', hm'⟩ := dictUnlink_spec h hm k
  refine ⟨d', ?_, h', hm'⟩
  unfold dictUnlink at heq
  have : ((m.lookup k).map (DictEntry.mk k)).isSome = decide (k ∈ m) := by
    rw [isSome_map, Bool.eq_iff_iff, lookup_isSome, decide_eq_true_eq]
  simp [dictDelete, heq, this]

theorem dictFind_map_spec :
    ∃ d', dictFind hash d k = .ok (d', (m.lookup k).map (⟨k, ·⟩)) ∧ d'.Shape hash ∧
      d'.Represents m := by
  obtain ⟨d', h', hp, ⟨heq, hno⟩ | ⟨e, he, heq, rfl⟩⟩ := dictFind_spec h k
  · exact ⟨d', by simp [heq, hm.lookup_of_forall_ne hno], h', hm.perm hp⟩
  · exact ⟨d', by simp [heq, hm.lookup_of_mem he], h', hm.perm hp⟩

end

/-- What a finite map does, and what it returns. The results of `dictRehash` and `dictExpand` are
not about the map. -/
def mapStep [DecidableEq K] (m : Finmap fun _ : K => Option V) :
    DictOp K V → (Finmap fun _ : K => Option V) × Option (DictReply K V)
  | .add k v => (if k ∈ m then m else m.insert k (some v), some (.status (k ∉ m)))
  | .replace k v => (m.insert k (some v), some (.status (k ∉ m)))
  | .addOrFind k =>
    (if k ∈ m then m else m.insert k none, some (.entry (some ⟨k, (m.lookup k).getD none⟩)))
  | .delete k => (m.erase k, some (.status (k ∈ m)))
  | .unlink k => (m.erase k, some (.entry ((m.lookup k).map (⟨k, ·⟩))))
  | .find k => (m, some (.entry ((m.lookup k).map (⟨k, ·⟩))))
  | .rehash _ => (m, none)
  | .expand _ => (m, none)
  | .canResize _ => (m, some .none)
  | .iterators _ => (m, some .none)

/-- The finite map after a sequence of calls, and what it returned. -/
def mapRun [DecidableEq K] (m : Finmap fun _ : K => Option V) :
    List (DictOp K V) → (Finmap fun _ : K => Option V) × List (Option (DictReply K V))
  | [] => (m, [])
  | op :: ops =>
    let (m, r) := mapStep m op
    let (m, rs) := mapRun m ops
    (m, r :: rs)

/-! ## Runs -/

namespace DictState

variable [DecidableEq K]

/-- What a call needs: a table that fits in memory, and counters that fit in an `int`. -/
def Fits (s : DictState K V) : DictOp K V → Prop
  | .add _ _ => (s.dict.ht0.used + s.dict.ht1.used) * 2 ≤ 2 ^ 60
  | .replace _ _ => (s.dict.ht0.used + s.dict.ht1.used) * 2 ≤ 2 ^ 60
  | .addOrFind _ => (s.dict.ht0.used + s.dict.ht1.used) * 2 ≤ 2 ^ 60
  | .rehash n => RehashFits s.dict n
  | .expand size => ExpandFits s.dict size
  | _ => True

instance (s : DictState K V) (op : DictOp K V) : Decidable (s.Fits op) := by
  cases op <;> unfold Fits <;> infer_instance

def RunFits (hash : K → Nat) (s : DictState K V) : List (DictOp K V) → Prop
  | [] => True
  | op :: ops => s.Fits op ∧ ∀ s' r, s.step hash op = .ok (s', r) → RunFits hash s' ops

variable {s : DictState K V} {m : Finmap fun _ : K => Option V}

/-- One call: it returns, it returns what the finite map returns, and it stores the pairs of the
finite map. -/
theorem step_refines (h : s.dict.Shape hash) (hm : s.dict.Represents m)
    (hf : s.Fits op) : ∃ s' r, s.step hash op = .ok (s', r) ∧ s'.dict.Shape hash ∧
      s'.dict.Represents (mapStep m op).1 ∧ ∀ r', (mapStep m op).2 = some r' → r = r' := by
  have hused := h.used_eq
  cases op with
  | add k v =>
    obtain ⟨d', heq, h', hm'⟩ := dictAdd_spec s.canResize h hm (hused ▸ hf) k v
    exact ⟨{ s with dict := d' }, _, by rw [step, heq]; rfl, h', hm', fun _ => some.inj⟩
  | replace k v =>
    obtain ⟨d', heq, h', hm'⟩ := dictReplace_spec s.canResize h hm (hused ▸ hf) k v
    exact ⟨{ s with dict := d' }, _, by rw [step, heq]; rfl, h', hm', fun _ => some.inj⟩
  | addOrFind k =>
    obtain ⟨d', heq, h', hm'⟩ := dictAddOrFind_spec s.canResize h hm (hused ▸ hf) k
    exact ⟨{ s with dict := d' }, _, by rw [step, heq]; rfl, h', hm', fun _ => some.inj⟩
  | delete k =>
    obtain ⟨d', heq, h', hm'⟩ := dictDelete_spec h hm k
    exact ⟨{ s with dict := d' }, _, by rw [step, heq]; rfl, h', hm', fun _ => some.inj⟩
  | unlink k =>
    obtain ⟨d', heq, h', hm'⟩ := dictUnlink_spec h hm k
    exact ⟨{ s with dict := d' }, _, by rw [step, heq]; rfl, h', hm', fun _ => some.inj⟩
  | find k =>
    obtain ⟨d', heq, h', hm'⟩ := dictFind_map_spec h hm k
    exact ⟨{ s with dict := d' }, _, by rw [step, heq]; rfl, h', hm', fun _ => some.inj⟩
  | rehash n =>
    obtain ⟨d', b, heq, h', hp, _⟩ := dictRehash_spec h hf
    exact ⟨{ s with dict := d' }, _, by rw [step, heq]; rfl, h', hm.perm hp, by simp [mapStep]⟩
  | expand size =>
    obtain ⟨h', he⟩ := dictExpand_spec h hf
    exact ⟨_, _, rfl, h', hm.perm (he ▸ .refl _), by simp [mapStep]⟩
  | canResize b => exact ⟨_, _, rfl, h, hm, fun _ => some.inj⟩
  | iterators n =>
    refine ⟨_, _, rfl, ?_, hm, fun _ => some.inj⟩
    cases h with
    | fresh h0 h1 idx => exact .fresh h0 h1 idx
    | stable h0 h1 idx => exact .stable h0 h1 idx
    | rehashing r h => exact .rehashing r ⟨h.idx, h.ht0, h.ht1, h.le, h.low⟩

theorem run_refines (h : s.dict.Shape hash) (hm : s.dict.Represents m)
    (hf : s.RunFits hash ops) : ∃ s' rs, s.run hash ops = .ok (s', rs) ∧ s'.dict.Shape hash ∧
      s'.dict.Represents (mapRun m ops).1 ∧
      List.Forall₂ (fun r o => ∀ r', o = some r' → r = r') rs (mapRun m ops).2 := by
  induction ops generalizing s m with
  | nil => exact ⟨s, [], rfl, h, hm, .nil⟩
  | cons op ops ih =>
    obtain ⟨s1, r, hstep, h1, hm1, hr⟩ := step_refines h hm hf.1
    obtain ⟨s2, rs, hrun, h2, hm2, hrs⟩ := ih h1 hm1 (hf.2 s1 r hstep)
    refine ⟨s2, r :: rs, ?_, h2, hm2, .cons hr hrs⟩
    unfold run
    simp [hstep, hrun]

end DictState

/-! ## What a dict that represents a finite map looks like -/

theorem deref_eq_ok_iff : d.deref ref = .ok e ↔
      ∃ ch, (d.ht ref.second).chain ref.idx = .ok ch ∧ ch[ref.pos]? = some e := by
  unfold Dict.deref
  rw [bind_eq_ok]
  refine exists_congr fun ch => and_congr_right fun _ => ?_
  cases ch[ref.pos]? <;> simp

theorem Dict.Shape.at_of_deref (h : d.Shape hash) (hd : d.deref ref = .ok e) : d.At ref e := by
  obtain ⟨c, hc, he⟩ := deref_eq_ok_iff.1 hd
  refine ⟨fun hs => ?_, c, hc, he⟩
  rw [hs] at hc
  cases h with
  | fresh _ h1 _ => simp [Dict.ht, h1, dictReset, Dictht.chain] at hc
  | stable _ h1 _ => simp [Dict.ht, h1, dictReset, Dictht.chain] at hc
  | rehashing r h => simp [Dict.isRehashing, h.idx]

theorem Dict.Shape.mem_entries_iff (h : d.Shape hash) :
    e ∈ d.entries ↔ ∃ ref, d.deref ref = .ok e := by
  constructor
  · intro he
    have hex : ∃ s, e ∈ (d.ht s).entries := by
      rcases mem_append.1 he with he | he
      · exact ⟨false, he⟩
      · exact ⟨true, he⟩
    obtain ⟨s, he⟩ := hex
    obtain ⟨i, c, hi, hec⟩ := Lib.mem_flatten_iff_getElem?.1 he
    obtain ⟨pos, hpos⟩ := mem_iff_getElem?.1 hec
    exact ⟨⟨s, i, pos⟩, deref_eq_ok_iff.2 ⟨c, Dictht.chain_eq_ok_iff.2 hi, hpos⟩⟩
  rintro ⟨ref, hd⟩
  exact (h.at_of_deref hd).mem_entries

theorem Dict.Shape.at_unique (h : d.Shape hash) (hnd : (d.entries.map (·.key)).Nodup)
    (hd : d.deref ref = .ok e)
    (hd' : d.deref ref' = .ok e') (hk : e.key = e'.key) : ref = ref' := by
  have h0 : d.ht0.Ok hash := h.ht0_ok (ne_nil_of_mem (h.at_of_deref hd).mem_entries)
  have hi := h.idx_eq h0 (h.at_of_deref hd)
  have hi' := h.idx_eq h0 (h.at_of_deref hd')
  obtain ⟨c, hc, he⟩ := deref_eq_ok_iff.1 hd
  obtain ⟨c', hc', he'⟩ := deref_eq_ok_iff.1 hd'
  have mem {s : Bool} {i : Nat} {c : List (DictEntry K V)} {a : DictEntry K V}
      (hc : (d.ht s).chain i = .ok c) (ha : a ∈ c) : a ∈ (d.ht s).entries :=
    Lib.mem_flatten_iff_getElem?.2 ⟨i, c, Dictht.chain_eq_ok_iff.1 hc, ha⟩
  have hm := mem hc (mem_of_getElem? he)
  have hm' := mem hc' (mem_of_getElem? he')
  unfold Dict.entries at hnd
  rw [map_append, nodup_append] at hnd
  have apart : ∀ a ∈ d.ht0.entries, ∀ b ∈ d.ht1.entries, a.key ≠ b.key := fun a ha b hb =>
    hnd.2.2 _ (mem_map_of_mem ha) _ (mem_map_of_mem hb)
  have hsecond : ref.second = ref'.second := by
    cases hs : ref.second <;> cases hs' : ref'.second
    · rfl
    · rw [hs] at hm
      rw [hs'] at hm'
      exact absurd hk (apart _ hm _ hm')
    · rw [hs] at hm
      rw [hs'] at hm'
      exact absurd hk.symm (apart _ hm' _ hm)
    · rfl
  have hidx : ref.idx = ref'.idx := by rw [← hi, ← hi', hk, hsecond]
  -- both places are in one chain, and its keys differ
  rw [← hsecond, ← hidx, hc] at hc'
  obtain rfl : c = c' := by simpa using hc'
  have hcn : (c.map (·.key)).Nodup := by
    have hsub : ((d.ht ref.second).entries.map (·.key)).Nodup := by
      cases ref.second
      · exact hnd.1
      · exact hnd.2.1
    obtain ⟨rest, hp, _⟩ := Lib.exists_flatten_set (Dictht.chain_eq_ok_iff.1 hc)
    have := (hp.map (·.key)).nodup_iff.1 hsub
    rw [map_append] at this
    exact this.of_append_left
  have hpos : ref.pos = ref'.pos := by
    obtain ⟨hlt, hge⟩ := List.getElem?_eq_some_iff.1 he
    obtain ⟨hlt', hge'⟩ := List.getElem?_eq_some_iff.1 he'
    have hi : ref.pos < (c.map (·.key)).length := by simpa
    have hj : ref'.pos < (c.map (·.key)).length := by simpa
    have hkey : (c.map (·.key))[ref.pos] = (c.map (·.key))[ref'.pos] := by simp [hge, hge', hk]
    exact hcn.getElem_inj_iff.1 hkey
  cases ref
  cases ref'
  simp_all

variable [DecidableEq K]

/-- The tables of a dict and the finite map that it stores: the places of entries hold the pairs of
the map, a key has one place, the place is in the bucket of the key's hash, the buckets below
`rehashidx` are empty, and the counters count the keys. -/
structure Dict.Refines (hash : K → Nat) (d : Dict K V) (m : Finmap fun _ : K => Option V) :
    Prop where
  pairs : ∀ k v, m.lookup k = some v ↔ ∃ ref, d.deref ref = .ok ⟨k, v⟩
  once : ∀ ref ref' e e', d.deref ref = .ok e → d.deref ref' = .ok e' → e.key = e'.key → ref = ref'
  index : ∀ ref e, d.deref ref = .ok e → ref.idx = hash e.key &&& (d.ht ref.second).sizemask
  low : ∀ r, d.rehashidx = some r → ∀ i < r, d.ht0.chain i = .ok []
  used : d.ht0.used + d.ht1.used = m.keys.card

theorem Dict.Shape.refines (h : d.Shape hash) (hm : d.Represents m) : d.Refines hash m where
  pairs k v := by
    rw [← h.mem_entries_iff]
    exact ⟨hm.mem_of_lookup, fun he => hm.lookup_of_mem he⟩
  once ref ref' e e' hd hd' hk := h.at_unique hm.nodup hd hd' hk
  index ref e hd := by
    have hat := h.at_of_deref hd
    exact (h.idx_eq (h.ht0_ok (ne_nil_of_mem hat.mem_entries)) hat).symm
  low r hr i hi := by
    cases h with
    | fresh _ _ idx => simp [idx] at hr
    | stable _ _ idx => simp [idx] at hr
    | rehashing r' h =>
      obtain rfl : r' = r := by simpa [h.idx] using hr
      exact Dictht.chain_eq_ok_iff.2 (h.low i hi)
  used := by rw [h.used_eq, hm.card_eq]

/-- A run can be checked by running it. -/
instance DictState.decidableRunFits (hash : K → Nat) :
    (s : DictState K V) → (ops : List (DictOp K V)) → Decidable (s.RunFits hash ops)
  | _, [] => isTrue trivial
  | s, op :: ops =>
    match h : s.step hash op with
    | .error _ =>
      decidable_of_iff (s.Fits op) ⟨fun hf => ⟨hf, fun _ _ hs => by simp [h] at hs⟩, And.left⟩
    | .ok (s', r) =>
      have := decidableRunFits hash s' ops
      decidable_of_iff (s.Fits op ∧ s'.RunFits hash ops)
        (and_congr_right fun _ =>
          ⟨fun hr _ _ hs => by cases h.symm.trans hs; exact hr, fun hr => hr s' r h⟩)

/-- A dict refines a finite map along every run whose tables fit in memory: no call reads outside
a table, the calls return what the finite map returns, and the tables are as the map says. -/
theorem run_refines_finmap (hash : K → Nat) (ops : List (DictOp K V))
    (hf : DictState.init.RunFits hash ops) :
    ∃ s rs, DictState.init.run hash ops = .ok (s, rs) ∧ s.dict.Refines hash (mapRun ∅ ops).1 ∧
      List.Forall₂ (fun r o => ∀ r', o = some r' → r = r') rs (mapRun ∅ ops).2 := by
  have hinit : DictState.init.dict.Shape hash := .create (K := K) (V := V)
  obtain ⟨s, rs, hrun, h, hm, hrs⟩ := DictState.run_refines hinit .create hf
  exact ⟨s, rs, hrun, h.refines hm, hrs⟩

/-- Keys with one hash, a growth in the middle of the run, and an entry that is unlinked while the
dict is rehashed. -/
theorem run_refines_finmap_collisions : ∃ s rs, DictState.init.run (fun k : Nat => k % 4)
        [.add 1 'a', .add 5 'b', .canResize false, .add 9 'c', .iterators 1, .add 13 'd',
          .canResize true, .add 17 'e', .unlink 5, .iterators 0, .rehash 1, .replace 9 'f',
          .expand 64, .rehash (-1), .delete 5, .addOrFind 2, .find 13] = .ok (s, rs) ∧
      s.dict.Refines (fun k : Nat => k % 4) (mapRun ∅
        [.add 1 'a', .add 5 'b', .canResize false, .add 9 'c', .iterators 1, .add 13 'd',
          .canResize true, .add 17 'e', .unlink 5, .iterators 0, .rehash 1, .replace 9 'f',
          .expand 64, .rehash (-1), .delete 5, .addOrFind 2, .find 13]).1 ∧
      List.Forall₂ (fun r o => ∀ r', o = some r' → r = r') rs (mapRun ∅
        [.add 1 'a', .add 5 'b', .canResize false, .add 9 'c', .iterators 1, .add 13 'd',
          .canResize true, .add 17 'e', .unlink 5, .iterators 0, .rehash 1, .replace 9 'f',
          .expand 64, .rehash (-1), .delete 5, .addOrFind 2, .find 13]).2 :=
  run_refines_finmap _ _ (by decide +kernel)

/-- `dictExpand(d, ULONG_MAX)`, as in `DEBUG POPULATE -1`: the table that `zcalloc` gives has no
bucket, and the next addition reads one. -/
theorem run_expand_max_faults :
    (DictState.init.run (fun k : Nat => k) [.expand (2 ^ 64 - 1), .add 1 'a'] :
      Except Fault (DictState Nat Char × List (DictReply Nat Char))) = .error .indexBounds := by
  decide +kernel

end UfsRedis.Keyspace
