import Mathlib.Data.List.Nodup

/-!
# A doubly linked list as a list of named nodes

The nodes of a linked list in their order, each with a name. A pointer to a node is its name, and the
neighbours of a node are those in the list. Where the names differ, a node splits the list at one place,
and all operations are known from the two parts:

* `find_eq`, `next_eq`: what is read through a pointer;
* `update_eq`, `remove_eq`: what is written.
-/

namespace Lib.Linked

open List

variable {α : Type*} (name : α → Nat)

def find (l : List α) (n : Nat) : Option α := l.find? (name · = n)

/-- The name of the node behind the one with the name `n`. -/
def next (l : List α) (n : Nat) : Option Nat :=
  ((l.dropWhile (name · ≠ n)).tail.head?).map name

/-- The name of the node before the one with the name `n`. -/
def prev (l : List α) (n : Nat) : Option Nat := next name l.reverse n

def update (l : List α) (n : Nat) (f : α → α) : List α :=
  l.map fun a => if name a = n then f a else a

def remove (l : List α) (n : Nat) : List α := l.filter (name · ≠ n)

variable {name} {pre post : List α} {a : α}

section

variable (h : ((pre ++ a :: post).map name).Nodup)
include h

theorem ne_of_nodup : (∀ b ∈ pre, name b ≠ name a) ∧ ∀ b ∈ post, name b ≠ name a := by
  rw [map_append, map_cons, nodup_append, nodup_cons] at h
  obtain ⟨-, ⟨hpost, -⟩, hpre⟩ := h
  refine ⟨fun b hb => hpre _ (mem_map_of_mem hb) _ (mem_cons_self ..), ?_⟩
  intro b hb heq
  exact hpost (heq ▸ mem_map_of_mem hb)

theorem find_eq : find name (pre ++ a :: post) (name a) = some a := by
  have hpre : pre.find? (name · = name a) = none :=
    find?_eq_none.2 fun b hb => by simpa using (ne_of_nodup h).1 b hb
  unfold find
  rw [find?_append, hpre, Option.none_or, find?_cons_of_pos (by simp)]

theorem next_eq : next name (pre ++ a :: post) (name a) = post.head?.map name := by
  unfold next
  rw [dropWhile_append_of_pos fun b hb => by simpa using (ne_of_nodup h).1 b hb,
    dropWhile_cons_of_neg (by simp), tail_cons]

end

theorem next_getElem? {l} {i : Nat} (h : (l.map name).Nodup) (hi : l[i]? = some a) :
    next name l (name a) = l[i + 1]?.map name := by
  obtain ⟨hlt, rfl⟩ := List.getElem?_eq_some_iff.1 hi
  have hsplit : l.take i ++ l[i] :: l.drop (i + 1) = l := by
    rw [← drop_eq_getElem_cons hlt, take_append_drop]
  have heq := @next_eq _ _ (l.take i) (l.drop (i + 1)) (l[i]) (by rwa [hsplit])
  rw [hsplit, head?_drop] at heq
  exact heq

theorem update_eq (h : ((pre ++ a :: post).map name).Nodup) (f : α → α) :
    update name (pre ++ a :: post) (name a) f = pre ++ f a :: post := by
  have same {l : List α} (hl : ∀ b ∈ l, name b ≠ name a) :
      l.map (fun b => if name b = name a then f b else b) = l :=
    (map_congr_left fun b hb => if_neg (hl b hb)).trans (map_id' l)
  unfold update
  rw [map_append, map_cons, same (ne_of_nodup h).1, same (ne_of_nodup h).2, if_pos rfl]

theorem remove_eq (h : ((pre ++ a :: post).map name).Nodup) :
    remove name (pre ++ a :: post) (name a) = pre ++ post := by
  have same {l : List α} (hl : ∀ b ∈ l, name b ≠ name a) : l.filter (name · ≠ name a) = l :=
    filter_eq_self.2 fun b hb => by simpa using hl b hb
  unfold remove
  rw [filter_append, filter_cons_of_neg (by simp), same (ne_of_nodup h).1, same (ne_of_nodup h).2]

end Lib.Linked
