import Mathlib.Data.Setoid.Basic
import Mathlib.Order.CompletePartialOrder
import Mathlib.Order.ConditionallyCompleteLattice.Basic

/-!
# Gluing and cutting partitions

A partition of `α` is a `Setoid α`. Two operations change it:

* `glue p X` makes one class of all classes that meet `X`;
* `cut p T` divides each class into its part inside `T` and its part outside.

Both are lattice operations (`glue` is a join, `cut` a meet), so glues commute with glues and cuts
with cuts. A glue and a cut commute after the glue is moved out of `T` (`cut_glue`): this is the
one square that operational transformation of `glue` against `cut` has to close.
-/

namespace Lib

namespace Partition

variable {α : Type*}

/-- The least partition with all elements of `X` in one class. -/
def block (X : Set α) : Setoid α := Relation.EqvGen.setoid fun x y => x ∈ X ∧ y ∈ X

/-- The partition `p` with all classes that meet `X` made one. -/
def glue (p : Setoid α) (X : Set α) : Setoid α := p ⊔ block X

/-- The partition `p` with each class divided into its parts inside and outside `T`. -/
def cut (p : Setoid α) (T : Set α) : Setoid α := p ⊓ Setoid.ker (· ∈ T)

variable {p q : Setoid α} {X Y T S : Set α} {x y : α}

theorem block_le : block X ≤ q ↔ ∀ x ∈ X, ∀ y ∈ X, q x y := by
  constructor
  · intro h x hx y hy
    exact h (Relation.EqvGen.rel _ _ ⟨hx, hy⟩)
  intro h
  exact Setoid.eqvGen_le fun x y hxy => h x hxy.1 y hxy.2

theorem glue_le : glue p X ≤ q ↔ p ≤ q ∧ ∀ x ∈ X, ∀ y ∈ X, q x y := by
  rw [glue, sup_le_iff, block_le]

theorem le_glue : p ≤ glue p X := le_sup_left

theorem glue_rel (hx : x ∈ X) (hy : y ∈ X) : glue p X x y := (glue_le.mp le_rfl).2 x hx y hy

/-- `x` is in a class that meets `X`. -/
def Meets (p : Setoid α) (X : Set α) (x : α) : Prop := ∃ u ∈ X, p x u

theorem Meets.of_rel (h : Meets p X y) (hxy : p x y) : Meets p X x := by
  obtain ⟨u, hu, hyu⟩ := h
  exact ⟨u, hu, p.trans' hxy hyu⟩

/-- The explicit form of `glue`, as a partition. -/
def glued (p : Setoid α) (X : Set α) : Setoid α where
  r x y := p x y ∨ (Meets p X x ∧ Meets p X y)
  iseqv :=
    { refl := fun x => .inl (p.refl' x)
      symm := fun h => h.elim (fun h => .inl (p.symm' h)) fun h => .inr ⟨h.2, h.1⟩
      trans := by
        rintro x y z (hxy | ⟨hx, hy⟩) (hyz | ⟨hy', hz⟩)
        · exact .inl (p.trans' hxy hyz)
        · exact .inr ⟨hy'.of_rel hxy, hz⟩
        · exact .inr ⟨hx, hy.of_rel (p.symm' hyz)⟩
        · exact .inr ⟨hx, hz⟩ }

theorem glue_eq_glued : glue p X = glued p X := by
  apply le_antisymm
  · refine glue_le.mpr ⟨fun _ _ h => .inl h, fun x hx y hy => .inr ?_⟩
    exact ⟨⟨x, hx, p.refl' x⟩, ⟨y, hy, p.refl' y⟩⟩
  rintro x y (h | ⟨⟨u, hu, hxu⟩, ⟨v, hv, hyv⟩⟩)
  · exact le_glue h
  have huv : glue p X u v := glue_rel hu hv
  exact (glue p X).trans' (le_glue hxu) ((glue p X).trans' huv (le_glue (p.symm' hyv)))

theorem glue_iff : glue p X x y ↔ p x y ∨ (Meets p X x ∧ Meets p X y) := by
  rw [glue_eq_glued]; rfl

theorem cut_iff : cut p T x y ↔ p x y ∧ (x ∈ T ↔ y ∈ T) := by
  rw [cut, Setoid.inf_iff_and, Setoid.ker_def, eq_iff_iff]

theorem cut_le : cut p T ≤ p := inf_le_left

theorem glue_comm : glue (glue p X) Y = glue (glue p Y) X := sup_right_comm _ _ _

theorem cut_comm : cut (cut p T) S = cut (cut p S) T := inf_right_comm _ _ _

theorem glue_glue : glue (glue p X) Y = glue p X ⊔ glue p Y := by
  simp only [glue]
  rw [← sup_sup_distrib_left, sup_assoc]

theorem glue_eq_self (h : ∀ x ∈ X, ∀ y ∈ X, p x y) : glue p X = p :=
  le_antisymm (glue_le.mpr ⟨le_rfl, h⟩) le_glue

@[simp] theorem glue_empty : glue p ∅ = p := glue_eq_self (by simp)

@[simp] theorem glue_singleton (a : α) : glue p {a} = p :=
  glue_eq_self (by rintro x rfl y rfl; exact p.refl' _)

theorem glue_congr (h : ∀ x, Meets p X x ↔ Meets p Y x) : glue p X = glue p Y := by
  ext x y
  rw [glue_iff, glue_iff, h, h]

theorem glue_glue_of_mem {a} (hX : a ∈ X) (hY : a ∈ Y) : glue (glue p X) Y = glue p (X ∪ Y) := by
  apply le_antisymm
  · refine glue_le.mpr ⟨glue_le.mpr ⟨le_glue, fun x hx y hy => ?_⟩, fun x hx y hy => ?_⟩
    · exact glue_rel (.inl hx) (.inl hy)
    · exact glue_rel (.inr hx) (.inr hy)
  have ha : ∀ x ∈ X ∪ Y, glue (glue p X) Y x a := by
    rintro x (hx | hx)
    · exact le_glue (glue_rel hx hX)
    · exact glue_rel hx hY
  exact glue_le.mpr ⟨le_glue.trans le_glue, fun x hx y hy =>
    Setoid.trans' _ (ha x hx) (Setoid.symm' _ (ha y hy))⟩

theorem cut_eq_self (h : ∀ x y, p x y → (x ∈ T ↔ y ∈ T)) : cut p T = p := by
  apply le_antisymm cut_le
  intro x y hxy
  exact cut_iff.mpr ⟨hxy, h x y hxy⟩

/-- **The square of a glue and a cut.** Let `T` lie in one class. A glue along `X` and then the cut
is the cut and then a glue along `Y`, if `Y` is outside `T` and meets the same classes as `X`
outside `T`. -/
theorem cut_glue (hT : ∀ x ∈ T, ∀ y ∈ T, p x y) (hd : ∀ u ∈ Y, u ∉ T)
    (h : ∀ x, x ∉ T → (Meets p X x ↔ Meets p Y x)) : cut (glue p X) T = glue (cut p T) Y := by
  -- outside `T`, a class of the cut meets `Y` where the class of `p` does; inside, never
  have hm : ∀ x, Meets (cut p T) Y x ↔ x ∉ T ∧ Meets p Y x := by
    intro x
    constructor
    · rintro ⟨u, hu, hxu⟩
      obtain ⟨hp, hiff⟩ := cut_iff.mp hxu
      exact ⟨fun hx => hd u hu (hiff.mp hx), u, hu, hp⟩
    rintro ⟨hx, u, hu, hxu⟩
    exact ⟨u, hu, cut_iff.mpr ⟨hxu, by simp [hx, hd u hu]⟩⟩
  ext x y
  rw [cut_iff, glue_iff, glue_iff, cut_iff, hm, hm]
  by_cases hx : x ∈ T <;> by_cases hy : y ∈ T
  · simpa [hx, hy] using fun _ _ => hT x hx y hy
  · simp [hx, hy]
  · simp [hx, hy]
  · simp [hx, hy, h x hx, h y hy]

/-- A glue commutes with the cut of a part `T` of a class iff it is all outside or all inside of
`T`. -/
theorem cut_glue_eq_iff (hT : ∀ x ∈ T, ∀ y ∈ T, p x y) :
    cut (glue p X) T = glue (cut p T) X ↔ (∀ x ∈ X, x ∉ T) ∨ ∀ x ∈ X, x ∈ T := by
  constructor
  · intro h
    by_cases hout : ∀ x ∈ X, x ∉ T
    · exact .inl hout
    obtain ⟨u, hu, huT⟩ : ∃ u ∈ X, u ∈ T := by simpa using hout
    refine .inr fun x hx => ?_
    have hux : cut (glue p X) T u x := h ▸ glue_rel hu hx
    exact (cut_iff.mp hux).2.mp huT
  rintro (hout | hin)
  · exact cut_glue hT hout fun _ _ => Iff.rfl
  have hcut : ∀ x ∈ X, ∀ y ∈ X, cut p T x y := fun x hx y hy =>
    cut_iff.mpr ⟨hT x (hin x hx) y (hin y hy), by simp [hin x hx, hin y hy]⟩
  rw [glue_eq_self fun x hx y hy => cut_le (hcut x hx y hy), glue_eq_self hcut]

theorem cut_congr (h : ∀ x y, p x y → ((x ∈ T ↔ y ∈ T) ↔ (x ∈ S ↔ y ∈ S))) : cut p T = cut p S := by
  ext x y
  rw [cut_iff, cut_iff]
  exact and_congr_right (h x y)

theorem glue_cut (hT : ∀ u ∈ T, ∀ v ∈ T, p u v) (hx : x ∈ T) (hy : y ∉ T) (hxy : p x y) :
    glue (cut p T) {x, y} = p := by
  refine le_antisymm (glue_le.mpr ⟨cut_le, ?_⟩) fun u v huv => ?_
  · rintro u (rfl | rfl) v (rfl | rfl)
    · exact p.refl' _
    · exact hxy
    · exact p.symm' hxy
    · exact p.refl' _
  rw [glue_iff, cut_iff]
  have hmeets : ∀ w, p w x → Meets (cut p T) {x, y} w := by
    intro w hw
    by_cases hwT : w ∈ T
    · exact ⟨x, .inl rfl, cut_iff.mpr ⟨hw, iff_of_true hwT hx⟩⟩
    · exact ⟨y, .inr rfl, cut_iff.mpr ⟨p.trans' hw hxy, iff_of_false hwT hy⟩⟩
  by_cases hux : p u x
  · exact .inr ⟨hmeets u hux, hmeets v (p.trans' (p.symm' huv) hux)⟩
  refine .inl ⟨huv, iff_of_false (fun hu => hux (hT u hu x hx)) fun hv => hux ?_⟩
  exact p.trans' huv (hT v hv x hx)


/-- The partition generated by a symmetric and transitive relation is the relation itself, with
every other element alone. -/
theorem eqvGen_iff {r} (hs : ∀ x y, r x y → r y x)
    (ht : ∀ x y z, r x y → r y z → r x z) : Relation.EqvGen.setoid r x y ↔ x = y ∨ r x y := by
  constructor
  · intro h
    induction h with
    | rel x y h => exact .inr h
    | refl x => exact .inl rfl
    | symm x y _ ih => exact ih.imp Eq.symm (hs x y)
    | trans x y z _ _ ih1 ih2 =>
      rcases ih1 with rfl | h1
      · exact ih2
      rcases ih2 with rfl | h2
      · exact .inr h1
      · exact .inr (ht x y z h1 h2)
  rintro (rfl | h)
  · exact .refl x
  · exact .rel x y h

end Partition

end Lib
