import Mathlib.Data.List.Nodup
import Mathlib.Data.List.Perm.Subperm

/-!
# Blocks at addresses, and linked lists

A heap maps addresses to blocks. An address is handed out once: `next` is the first one that has
not been used, so that a block that was freed is never confused with a new one.

* `Heap.Holds h xs`: `xs` are the blocks at distinct addresses. A list is enough to talk about a
  linked structure: each operation of the heap changes one entry of it and keeps the others
  (`Holds.set`, `Holds.alloc`, `Holds.free`);
* `cells cell l t`: the blocks of a linked list with the values and addresses `l`, whose last block
  points to `t`; `start l t` is the pointer to it.
-/

namespace Lib

open List

variable {α β : Type*}

/-- Blocks at addresses. -/
structure Heap (α : Type*) where
  get : Nat → Option α
  next : Nat
  get_of_le : ∀ a, next ≤ a → get a = none

namespace Heap

variable {h : Heap α} {a b : Nat} {n m : α}

theorem lt_next (hget : h.get a = some n) : a < h.next := by
  by_contra hle
  rw [h.get_of_le a (Nat.le_of_not_lt hle)] at hget
  cases hget

def empty : Heap α := ⟨fun _ => none, 0, fun _ _ => rfl⟩

/-- A new block, at `h.next`. -/
def alloc (h : Heap α) (n : α) : Heap α where
  get a := if a = h.next then some n else h.get a
  next := h.next + 1
  get_of_le a ha := by
    rw [if_neg (by omega)]
    exact h.get_of_le a (by omega)

def set (h : Heap α) (a : Nat) (n : α) : Heap α where
  get b := if b = a ∧ a < h.next then some n else h.get b
  next := h.next
  get_of_le b hb := by
    rw [if_neg (by omega)]
    exact h.get_of_le b hb

def free (h : Heap α) (a : Nat) : Heap α where
  get b := if b = a then none else h.get b
  next := h.next
  get_of_le b hb := by
    split
    · rfl
    · exact h.get_of_le b hb

theorem get_alloc_next : (h.alloc n).get h.next = some n := if_pos rfl

theorem get_alloc (hget : h.get a = some m) : (h.alloc n).get a = some m := by
  have := lt_next hget
  exact (if_neg (by omega)).trans hget

theorem get_set_self (hget : h.get a = some m) : (h.set a n).get a = some n :=
  if_pos ⟨rfl, lt_next hget⟩

theorem get_set_of_ne (hne : b ≠ a) : (h.set a n).get b = h.get b := if_neg fun hb => hne hb.1

theorem get_free_of_ne (hne : b ≠ a) : (h.free a).get b = h.get b := if_neg hne

def Grows (h h' : Heap α) : Prop := h.next ≤ h'.next ∧ ∀ a n, h.get a = some n → h'.get a = some n

theorem Grows.refl (h : Heap α) : Grows h h := ⟨Nat.le_refl _, fun _ _ hget => hget⟩

theorem Grows.trans {h' h''} (h₁ : Grows h h') (h₂ : Grows h' h'') : Grows h h'' :=
  ⟨Nat.le_trans h₁.1 h₂.1, fun a n hget => h₂.2 a n (h₁.2 a n hget)⟩

theorem grows_alloc (h : Heap α) (n : α) : Grows h (h.alloc n) :=
  ⟨Nat.le_succ _, fun _ _ hget => get_alloc hget⟩

/-- The blocks `xs`, at distinct addresses. -/
structure Holds (h : Heap α) (xs : List (Nat × α)) : Prop where
  nodup : (xs.map Prod.fst).Nodup
  block : ∀ e ∈ xs, h.get e.1 = some e.2

namespace Holds

variable {xs ys : List (Nat × α)}

theorem perm (hh : Holds h xs) (hp : xs.Perm ys) : Holds h ys :=
  ⟨(hp.map Prod.fst).nodup_iff.mp hh.nodup, fun e he => hh.block e (hp.mem_iff.mpr he)⟩

theorem head (hh : Holds h ((a, n) :: xs)) : h.get a = some n := hh.block (a, n) mem_cons_self

theorem tail (hh : Holds h ((a, n) :: xs)) : Holds h xs :=
  ⟨(nodup_cons.mp hh.nodup).2, fun e he => hh.block e (mem_cons_of_mem _ he)⟩

theorem ne_of_mem (hh : Holds h ((a, n) :: xs)) {e} (he : e ∈ xs) : e.1 ≠ a := by
  intro heq
  exact (nodup_cons.mp hh.nodup).1 (mem_map.mpr ⟨e, he, heq⟩)

theorem lt_next (hh : Holds h xs) {e} (he : e ∈ xs) : e.1 < h.next := Heap.lt_next (hh.block e he)

theorem length_le (hh : Holds h xs) : xs.length ≤ h.next := by
  have hsub : xs.map Prod.fst ⊆ List.range h.next := by
    intro b hb
    obtain ⟨e, he, rfl⟩ := mem_map.mp hb
    exact mem_range.mpr (hh.lt_next he)
  have := (hh.nodup.subperm hsub).length_le
  simpa using this

theorem cons_of_agree {h'} (hh : Holds h xs) (hget : h'.get b = some n)
    (hb : ∀ e ∈ xs, e.1 ≠ b) (hagree : ∀ e ∈ xs, h'.get e.1 = h.get e.1) :
    Holds h' ((b, n) :: xs) := by
  refine ⟨nodup_cons.mpr ⟨?_, hh.nodup⟩, ?_⟩
  · intro hmem
    obtain ⟨e, he, heq⟩ := mem_map.mp hmem
    exact hb e he heq
  intro e he
  obtain rfl | he := mem_cons.mp he
  · exact hget
  rw [hagree e he]
  exact hh.block e he

theorem set (hh : Holds h ((a, m) :: xs)) : Holds (h.set a n) ((a, n) :: xs) :=
  hh.tail.cons_of_agree (get_set_self hh.head) (fun _ he => hh.ne_of_mem he)
    fun _ he => get_set_of_ne (hh.ne_of_mem he)

theorem alloc (hh : Holds h xs) : Holds (h.alloc n) ((h.next, n) :: xs) := by
  refine hh.cons_of_agree get_alloc_next (fun e he => Nat.ne_of_lt (hh.lt_next he)) ?_
  intro e he
  exact if_neg (Nat.ne_of_lt (hh.lt_next he))

theorem free (hh : Holds h ((a, n) :: xs)) : Holds (h.free a) xs := by
  refine ⟨hh.tail.nodup, fun e he => ?_⟩
  rw [get_free_of_ne (hh.ne_of_mem he)]
  exact hh.tail.block e he

end Holds

end Heap

/-! ## Linked lists -/

/-- The pointer to a list of addresses and values that ends in `t`. -/
def start : List (Nat × β) → Option Nat → Option Nat
  | [], t => t
  | (a, _) :: _, _ => some a

/-- The blocks of a list that ends in `t`; `cell x p` is the block with value `x` and pointer `p`. -/
def cells (cell : β → Option Nat → α) : List (Nat × β) → Option Nat → List (Nat × α)
  | [], _ => []
  | (a, x) :: l, t => (a, cell x (start l t)) :: cells cell l t

variable {cell : β → Option Nat → α} {l l' : List (Nat × β)} {t : Option Nat}

theorem start_append : start (l ++ l') t = start l (start l' t) := by
  cases l <;> rfl

theorem cells_append : cells cell (l ++ l') t = cells cell l (start l' t) ++ cells cell l' t := by
  induction l with
  | nil => rfl
  | cons e l ih =>
    obtain ⟨a, x⟩ := e
    rw [cons_append, cells, cells, ih, start_append, cons_append]

theorem map_fst_cells : (cells cell l t).map Prod.fst = l.map Prod.fst := by
  induction l with
  | nil => rfl
  | cons e l ih =>
    obtain ⟨a, x⟩ := e
    rw [cells, map_cons, map_cons, ih]

end Lib
