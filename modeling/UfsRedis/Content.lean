import UfsRedis.Sds
import UfsRedis.Lib.Partition
import Mathlib.Data.List.Nodup
import Mathlib.Data.List.Pairwise
import Mathlib.Data.List.Perm.Basic

/-!
# Content strings and the partitions they denote

The content of a vertice of a state space, the argument of `uinit` and the reply of `umembers` are
strings of classes separated by `/`, each a list of names separated by `,`.

* `classesOf S`: the classes of a string; `render cs`: the string of a list of classes.
* `Classes`: classes of distinct well-formed names. The conditions are fields, so every value of
  the type can be written as a string and read back (`Classes.classesOf_render`).
* `partitionOf cs`: the partition of the names; `denote S`: the partition that a string denotes.
-/

namespace UfsRedis

open List Lib

/-- A name that can be written in a content string: nonempty, without a separator. -/
def NameOk (x : Sds) : Prop := x ≠ [] ∧ ',' ∉ x ∧ '/' ∉ x

instance (x : Sds) : Decidable (NameOk x) := inferInstanceAs (Decidable (_ ∧ _ ∧ _))

theorem NameOk.comma {x : Sds} (h : NameOk x) : x ≠ [] ∧ ',' ∉ x := ⟨h.1, h.2.1⟩

theorem split_operand {X : List Sds} (hX : ∀ x ∈ X, NameOk x) : sdssplit (sdsjoin X ',') ',' = X :=
  sdssplit_sdsjoin (fun x hx => (hX x hx).2.1) fun x hx => (hX x hx).1

/-- The classes of the text `a,b/c`. -/
def classesOf (S : Sds) : List (List Sds) := (sdssplit S '/').map (sdssplit · ',')

def render (cs : List (List Sds)) : Sds := sdsjoin (cs.map (sdsjoin · ',')) '/'

/-- The elements, class by class. -/
def elementsOf (S : Sds) : List Sds := (classesOf S).flatten

/-- `x` and `y` are in one of the classes. -/
def InClass (cs : List (List Sds)) (x y : Sds) : Prop := ∃ c ∈ cs, x ∈ c ∧ y ∈ c

instance (cs : List (List Sds)) (x y : Sds) : Decidable (InClass cs x y) :=
  inferInstanceAs (Decidable (∃ c ∈ cs, x ∈ c ∧ y ∈ c))

variable {x y S : Sds}

theorem inClass_cons {c cs} : InClass (c :: cs) x y ↔ (x ∈ c ∧ y ∈ c) ∨ InClass cs x y := by
  simp [InClass]

theorem inClass_append {cs ds} : InClass (cs ++ ds) x y ↔ InClass cs x y ∨ InClass ds x y := by
  simp [InClass, or_and_right, exists_or]

/-- The partition with the given classes; a name that is in none of them is alone. -/
def partitionOf (cs : List (List Sds)) : Setoid Sds := Relation.EqvGen.setoid (InClass cs)

/-- The partition that a content stands for. -/
def denote (S : Sds) : Setoid Sds := partitionOf (classesOf S)

/-- Classes of distinct well-formed names. -/
structure Classes where
  /-- The classes, in the order of the string. -/
  toList : List (List Sds)
  ne : ∀ c ∈ toList, c ≠ []
  names : ∀ c ∈ toList, ∀ x ∈ c, NameOk x
  nodup : toList.flatten.Nodup

/-- Slash-separated classes of comma-separated, distinct, nonempty names. -/
def WellFormed (S : Sds) : Prop :=
  (∀ c ∈ classesOf S, c ≠ [] ∧ ∀ x ∈ c, NameOk x) ∧ (elementsOf S).Nodup

instance (S : Sds) : Decidable (WellFormed S) := inferInstanceAs (Decidable (_ ∧ _))

/-- What a user gives to `uinit` as the members: a well-formed string without NUL bytes. -/
structure Members (S : Sds) : Prop where
  wellFormed : WellFormed S
  nulFree : NulFree S

theorem render_classesOf (S : Sds) : render (classesOf S) = S := by
  have h : (fun x => sdsjoin x ',') ∘ (fun x => sdssplit x ',') = id := by
    funext x; simp
  rw [render, classesOf, map_map, h, map_id, sdsjoin_sdssplit]

namespace Classes

def elements (cs : Classes) : List Sds := cs.toList.flatten

def render (cs : Classes) : Sds := UfsRedis.render cs.toList

def partition (cs : Classes) : Setoid Sds := partitionOf cs.toList

variable (cs : Classes) {x y : Sds} {c : List Sds}

theorem name_ok (h : x ∈ cs.elements) : NameOk x := by
  obtain ⟨c, hc, hx⟩ := mem_flatten.mp h
  exact cs.names c hc x hx

section

variable (hc : c ∈ cs.toList)
include hc

theorem mem_elements (hx : x ∈ c) : x ∈ cs.elements := mem_flatten.mpr ⟨c, hc, hx⟩

theorem class_nodup : c.Nodup := (nodup_flatten.mp cs.nodup).1 c hc

theorem class_unique {d} (hd : d ∈ cs.toList) (hxc : x ∈ c) (hxd : x ∈ d) : c = d := by
  by_contra h
  have : Std.Symm (List.Disjoint (α := Sds)) := ⟨fun _ _ h _ hy hx => h hx hy⟩
  exact (nodup_flatten.mp cs.nodup).2.forall hc hd h hxc hxd

theorem slash_not_mem : '/' ∉ sdsjoin c ',' := by
  intro h
  rcases mem_sdsjoin h with h | ⟨x, hx, h⟩
  · exact absurd h (by decide)
  · exact (cs.names c hc x hx).2.2 h

theorem join_ne_nil : sdsjoin c ',' ≠ [] :=
  sdsjoin_eq_nil (cs.ne c hc) fun x hx => (cs.names c hc x hx).1

theorem split_join : sdssplit (sdsjoin c ',') ',' = c := split_operand (cs.names c hc)

end

theorem split_render : sdssplit cs.render '/' = cs.toList.map (sdsjoin · ',') := by
  apply sdssplit_sdsjoin
  · simpa using fun c hc => cs.slash_not_mem hc
  · simpa using fun c hc => cs.join_ne_nil hc

@[simp] theorem classesOf_render : classesOf cs.render = cs.toList := by
  rw [classesOf, split_render, map_map]
  conv_rhs => rw [← map_id cs.toList]
  apply map_congr_left
  intro c hc
  exact cs.split_join hc

@[simp] theorem elementsOf_render : elementsOf cs.render = cs.elements := by
  rw [elementsOf, classesOf_render, elements]

@[simp] theorem denote_render : denote cs.render = cs.partition := by
  rw [denote, classesOf_render, partition]

theorem wellFormed_render : WellFormed cs.render := by
  refine ⟨?_, by rw [elementsOf_render]; exact cs.nodup⟩
  rw [classesOf_render]
  exact fun c hc => ⟨cs.ne c hc, cs.names c hc⟩

theorem inClass_symm (h : InClass cs.toList x y) : InClass cs.toList y x := by
  obtain ⟨c, hc, hx, hy⟩ := h
  exact ⟨c, hc, hy, hx⟩

theorem inClass_trans {z} (h₁ : InClass cs.toList x y) (h₂ : InClass cs.toList y z) :
    InClass cs.toList x z := by
  obtain ⟨c, hc, hx, hy⟩ := h₁
  obtain ⟨d, hd, hy', hz⟩ := h₂
  obtain rfl := cs.class_unique hc hd hy hy'
  exact ⟨c, hc, hx, hz⟩

theorem partition_iff : cs.partition x y ↔ x = y ∨ InClass cs.toList x y :=
  Partition.eqvGen_iff (fun _ _ => cs.inClass_symm) fun _ _ _ => cs.inClass_trans

theorem partition_iff_mem (hc : c ∈ cs.toList) (hy : y ∈ c) : cs.partition x y ↔ x ∈ c := by
  rw [partition_iff]
  constructor
  · rintro (rfl | ⟨d, hd, hx, hy'⟩)
    · exact hy
    · rwa [cs.class_unique hc hd hy hy']
  · exact fun hx => .inr ⟨c, hc, hx, hy⟩

end Classes

theorem WellFormed.exists_classes (h : WellFormed S) :
    ∃ cs : Classes, cs.render = S ∧ cs.toList = classesOf S :=
  ⟨⟨classesOf S, fun c hc => (h.1 c hc).1, fun c hc => (h.1 c hc).2, h.2⟩, render_classesOf S, rfl⟩

/-- The partition of a well-formed string can be read from its classes. -/
theorem WellFormed.denote_iff (h : WellFormed S) :
    denote S x y ↔ x = y ∨ InClass (classesOf S) x y := by
  obtain ⟨cs, rfl, hcs⟩ := h.exists_classes
  rw [cs.denote_render, cs.partition_iff, hcs]

end UfsRedis
