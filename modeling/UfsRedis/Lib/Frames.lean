import Mathlib.Data.List.Basic

/-!
# Frames of a stream that is cut

A stream is the encodings of a list of frames, one after the other. A cut after `n` symbols leaves
some frames whole, and the beginning of the frame that it falls into.

* `take_flatMap`: what is left is the whole frames and that beginning;
* `whole_flatMap`: where each frame is itself a list of smaller frames, the smaller frames that are
  left whole are those of the whole frames, and some of the frame that is torn.
-/

namespace Lib

open List

variable {α β γ : Type*}

section

variable (enc : α → List β)

/-- The frames that are whole in the first `n` symbols. -/
def whole : List α → Nat → List α
  | [], _ => []
  | a :: l, n => if (enc a).length ≤ n then a :: whole l (n - (enc a).length) else []

/-- The frame that the cut falls into, with the number of its symbols before the cut. -/
def torn : List α → Nat → Option (α × Nat)
  | [], _ => none
  | a :: l, n => if (enc a).length ≤ n then torn l (n - (enc a).length) else some (a, n)

end

variable {enc : α → List β} {l : List α} {n : Nat}

theorem take_flatMap (enc : α → List β) (l : List α) (n : Nat) : (l.flatMap enc).take n =
      (whole enc l n).flatMap enc ++ (torn enc l n).elim [] fun p => (enc p.1).take p.2 := by
  induction l generalizing n with
  | nil => simp [whole, torn]
  | cons a l ih =>
    rw [flatMap_cons, take_append]
    by_cases hn : (enc a).length ≤ n
    · rw [whole, torn, if_pos hn, if_pos hn, take_of_length_le hn, ih, flatMap_cons, append_assoc]
    have hzero : n - (enc a).length = 0 := by omega
    rw [whole, torn, if_neg hn, if_neg hn, hzero, take_zero, append_nil]
    rfl

theorem torn_eq_some {p} (h : torn enc l n = some p) : p.1 ∈ l ∧ p.2 < (enc p.1).length := by
  induction l generalizing n with
  | nil => exact absurd h (by simp [torn])
  | cons a l ih =>
    rw [torn] at h
    split at h
    · obtain ⟨hmem, hlt⟩ := ih h
      exact ⟨mem_cons_of_mem _ hmem, hlt⟩
    next hn =>
    cases h
    exact ⟨mem_cons_self, Nat.lt_of_not_le hn⟩

theorem mem_of_mem_whole {a} (h : a ∈ whole enc l n) : a ∈ l := by
  induction l generalizing n with
  | nil => exact h
  | cons b l ih =>
    rw [whole] at h
    split at h
    · rcases mem_cons.mp h with rfl | h
      · exact mem_cons_self
      · exact mem_cons_of_mem _ (ih h)
    · exact absurd h not_mem_nil

theorem whole_append (enc : α → List β) (l₁ l₂ : List α) (n : Nat) : whole enc (l₁ ++ l₂) n =
      if (l₁.flatMap enc).length ≤ n then l₁ ++ whole enc l₂ (n - (l₁.flatMap enc).length)
      else whole enc l₁ n := by
  induction l₁ generalizing n with
  | nil => simp
  | cons a l₁ ih =>
    rw [cons_append, whole, whole, flatMap_cons, length_append]
    by_cases ha : (enc a).length ≤ n
    · rw [if_pos ha, if_pos ha, ih, Nat.sub_sub]
      by_cases hl : (enc a).length + (l₁.flatMap enc).length ≤ n
      · rw [if_pos (by omega), if_pos hl, cons_append]
      · rw [if_neg (by omega), if_neg hl]
    · rw [if_neg ha, if_neg ha, if_neg (by omega)]

theorem whole_flatMap (enc : α → List β) (items : γ → List α) (l : List γ) (n : Nat) :
    whole enc (l.flatMap items) n = (whole (fun c => (items c).flatMap enc) l n).flatMap items ++
        (torn (fun c => (items c).flatMap enc) l n).elim [] fun p => whole enc (items p.1) p.2 := by
  induction l generalizing n with
  | nil => rfl
  | cons c l ih =>
    rw [flatMap_cons, whole_append, whole, torn]
    by_cases hn : ((items c).flatMap enc).length ≤ n
    · rw [if_pos hn, if_pos hn, if_pos hn, ih, flatMap_cons, append_assoc]
    rw [if_neg hn, if_neg hn, if_neg hn]
    rfl

end Lib
