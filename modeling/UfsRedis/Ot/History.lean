import UfsRedis.Ot.Oids

/-!
# Histories

The operations of a state space: for each side the list of its operations, with the context of each.
-/

namespace UfsRedis

open List Lib Coord

/-- An operation: its `oid`, how many operations of the other side it has in its context, and what
it was there. -/
structure OpRec where
  oid : Sds
  ctx : Nat
  op : UfsOp

abbrev History := Side → List OpRec

namespace History

def ctxs (H : History) : Side → List Nat := fun s => (H s).map OpRec.ctx

/-- The `oid` of operation `i` of side `s`. -/
def oid (H : History) (s : Side) (i : Nat) : Sds := ((H s).map OpRec.oid).getD i []

/-- The `oid`s of the operations in the state `c`. -/
def oids (H : History) (c : Coord) : List Sds :=
  ((H .l).take c.l).map OpRec.oid ++ ((H .r).take c.r).map OpRec.oid

/-- One more operation of side `s`. -/
def push (H : History) (s : Side) (r : OpRec) : History := fun t =>
  if t = s then H t ++ [r] else H t

variable {H : History} {s : Side} {r : OpRec} {c : Coord}

@[simp] theorem push_self : H.push s r s = H s ++ [r] := if_pos rfl

@[simp] theorem push_flip : H.push s r s.flip = H s.flip := if_neg (Side.flip_ne s)

@[simp] theorem push_flip' : H.push s.flip r s = H s := if_neg (Side.ne_flip s)

@[simp] theorem length_ctxs : (H.ctxs s).length = (H s).length := length_map _

theorem ctxs_push : (H.push s r).ctxs = Lib.push H.ctxs s r.ctx := by
  funext t
  rcases s.eq_or_eq_flip t with rfl | rfl <;> simp [ctxs]

variable {i : Nat} {t : Side} {o : Sds}

theorem oid_eq (h : (H s)[i]? = some r) : H.oid s i = r.oid := by
  simp [oid, h]

theorem oid_push_lt (h : i < (H t).length) : (H.push s r).oid t i = H.oid t i := by
  rcases s.eq_or_eq_flip t with rfl | rfl
  · rw [oid, oid, push_self, map_append]
    exact getD_append _ _ _ _ (by simpa using h)
  · simp [oid]

theorem oid_push_length : (H.push s r).oid s (H s).length = r.oid := by
  simp [oid]

/-- A step on one side adds the operation of that step. -/
theorem oids_step (h : c.get s < (H s).length) :
    (H.oids (c.step s)).Perm (H.oids c ++ [H.oid s (c.get s)]) := by
  have hoid : H.oid s (c.get s) = ((H s)[c.get s]).oid := by
    rw [oid_eq (getElem?_eq_getElem h)]
  rw [hoid]
  cases s with
  | l =>
    simp only [oids, step, Coord.get] at h ⊢
    rw [take_add_one, getElem?_eq_getElem h, Option.toList_some, map_append,
      map_singleton, append_assoc, append_assoc]
    exact perm_append_comm.append_left _
  | r =>
    simp only [oids, step, Coord.get] at h ⊢
    rw [take_add_one, getElem?_eq_getElem h, Option.toList_some, map_append,
      map_singleton, append_assoc]

/-- A new operation is in no earlier context. -/
theorem oids_push (hc : ∀ t, c.get t ≤ (H t).length) : (H.push s r).oids c = H.oids c := by
  have h : ∀ t, (H.push s r t).take (c.get t) = (H t).take (c.get t) := by
    intro t
    rcases s.eq_or_eq_flip t with rfl | rfl
    · rw [push_self, take_append_of_le_length (hc t)]
    · rw [push_flip]
  have hl := h .l
  have hr := h .r
  simp only [Coord.get] at hl hr
  rw [oids, oids, hl, hr]

/-- The `oid`s can be told apart: one is the beginning of another only if both are of one side, and
the second is not the earlier one. -/
structure OidsOk (H : History) : Prop where
  comma : ∀ s, ∀ r ∈ H s, ',' ∉ r.oid
  starts : ∀ s t i j, i < (H s).length → j < (H t).length → H.oid s i <+: H.oid t j →
    s = t ∧ i ≤ j

theorem mem_take_oids (hn : n ≤ (H s).length) :
    o ∈ ((H s).take n).map OpRec.oid ↔ ∃ i, i < n ∧ H.oid s i = o := by
  rw [mem_map]
  constructor
  · rintro ⟨r, hr, rfl⟩
    obtain ⟨i, hi, hir⟩ := mem_take_iff_getElem.mp hr
    refine ⟨i, by omega, oid_eq ?_⟩
    rw [getElem?_eq_getElem (by omega), hir]
  rintro ⟨i, hi, rfl⟩
  have hlt : i < (H s).length := by omega
  refine ⟨(H s)[i], mem_take_iff_getElem.mpr ⟨i, by omega, rfl⟩, ?_⟩
  rw [oid_eq (getElem?_eq_getElem hlt)]

/-- The operations of a context are the first ones of each side. -/
theorem mem_oids (hc : ∀ t, c.get t ≤ (H t).length) :
    o ∈ H.oids c ↔ ∃ s i, i < c.get s ∧ H.oid s i = o := by
  have hl : c.l ≤ (H .l).length := hc .l
  have hr : c.r ≤ (H .r).length := hc .r
  rw [oids, mem_append, mem_take_oids hl, mem_take_oids hr]
  constructor
  · rintro (⟨i, hi⟩ | ⟨i, hi⟩)
    · exact ⟨.l, i, hi⟩
    · exact ⟨.r, i, hi⟩
  rintro ⟨s, i, hi⟩
  cases s with
  | l => exact .inl ⟨i, hi⟩
  | r => exact .inr ⟨i, hi⟩

variable (h : OidsOk H)
include h

theorem OidsOk.oid_inj (hi : i < (H s).length)
    (hj : j < (H t).length) (he : H.oid s i = H.oid t j) : s = t ∧ i = j := by
  obtain ⟨rfl, hij⟩ := h.starts s t i j hi hj (he ▸ prefix_rfl)
  exact ⟨rfl, le_antisymm hij (h.starts s s j i hj hi (he ▸ prefix_rfl)).2⟩

/-- A context lists no operation twice. -/
theorem OidsOk.nodup_oids (hc : ∀ t, c.get t ≤ (H t).length) : (H.oids c).Nodup := by
  have hside : ∀ s, (((H s).take (c.get s)).map OpRec.oid).Nodup := by
    intro s
    rw [nodup_iff_pairwise_ne, pairwise_iff_getElem]
    intro i j hi hj hij he
    rw [length_map, length_take] at hi hj
    simp only [getElem_map, getElem_take] at he
    have hoid : ∀ k (hk : k < (H s).length), H.oid s k = ((H s)[k]).oid := fun k hk =>
      oid_eq (getElem?_eq_getElem hk)
    rw [← hoid, ← hoid] at he
    have := (h.oid_inj (by omega) (by omega) he).2
    omega
  refine nodup_append.mpr ⟨hside .l, hside .r, fun o hl o' hr heq => ?_⟩
  obtain ⟨i, hi, rfl⟩ := (mem_take_oids (hc .l)).mp hl
  obtain ⟨j, hj, rfl⟩ := (mem_take_oids (hc .r)).mp hr
  exact absurd (h.oid_inj (lt_of_lt_of_le hi (hc .l)) (lt_of_lt_of_le hj (hc .r)) heq).1
    (by decide)

theorem OidsOk.comma_oid (hi : i < (H s).length) : ',' ∉ H.oid s i := by
  rw [oid_eq (getElem?_eq_getElem hi)]
  exact h.comma s _ (getElem_mem hi)

theorem OidsOk.comma_oids : ∀ o ∈ H.oids c, ',' ∉ o := by
  intro o ho
  rw [oids, mem_append, mem_map, mem_map] at ho
  rcases ho with ⟨r, hr, rfl⟩ | ⟨r, hr, rfl⟩
  · exact h.comma .l r (mem_of_mem_take hr)
  · exact h.comma .r r (mem_of_mem_take hr)

/-- `findOid` finds the operations of a context, and no other ones. -/
theorem OidsOk.findOid_iff (hc : ∀ t, c.get t ≤ (H t).length)
    (hos : os.Perm (H.oids c)) (hi : i < (H s).length) :
    findOid (ctxText os) (H.oid s i) = true ↔ i < c.get s := by
  rw [findOid_ctxText (fun o ho => h.comma_oids o (hos.mem_iff.mp ho)) (h.comma_oid hi)]
  constructor
  · rintro ⟨o, ho, hp⟩
    obtain ⟨t, j, hj, rfl⟩ := (mem_oids hc).mp (hos.mem_iff.mp ho)
    obtain ⟨rfl, hij⟩ := h.starts s t i j hi (by have := hc t; omega) hp
    omega
  intro hlt
  exact ⟨H.oid s i, hos.mem_iff.mpr ((mem_oids hc).mpr ⟨s, i, hlt, rfl⟩), prefix_refl _⟩

end History

end UfsRedis
