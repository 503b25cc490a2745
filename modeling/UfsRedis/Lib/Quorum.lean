import Mathlib.Data.List.Count
import Mathlib.Data.List.Perm.Subperm

/-!
# Majorities

In a list of votes of which no two are of the same voter, no two choices have a majority of the
electorate.
-/

namespace Lib

open List

variable {α β : Type*} {electorate : List α} {votes : List (α × β)} {a b : β} [DecidableEq β]

theorem countP_add_countP_le (hab : a ≠ b) (hnodup : (votes.map Prod.fst).Nodup)
    (hmem : ∀ v ∈ votes, v.1 ∈ electorate) :
    votes.countP (·.2 = a) + votes.countP (·.2 = b) ≤ electorate.length := by
  have hsplit : ∀ l : List (α × β), l.countP (·.2 = a) + l.countP (·.2 = b) ≤ l.length := by
    intro l
    induction l with
    | nil => simp
    | cons v l ih =>
      have hone : ¬ (v.2 = a ∧ v.2 = b) := fun h => hab (h.1.symm.trans h.2)
      simp only [countP_cons, length_cons, decide_eq_true_eq]
      split <;> split <;> first | omega | exact absurd ⟨‹_›, ‹_›⟩ hone
  have hsub : votes.map Prod.fst ⊆ electorate := by
    intro x hx
    obtain ⟨v, hv, rfl⟩ := mem_map.mp hx
    exact hmem v hv
  have hlen := (subperm_of_subset hnodup hsub).length_le
  rw [length_map] at hlen
  exact Nat.le_trans (hsplit votes) hlen

theorem eq_of_quorum (hnodup : (votes.map Prod.fst).Nodup) (hmem : ∀ v ∈ votes, v.1 ∈ electorate)
    (ha : electorate.length / 2 + 1 ≤ votes.countP (·.2 = a))
    (hb : electorate.length / 2 + 1 ≤ votes.countP (·.2 = b)) : a = b := by
  by_contra hab
  have h := countP_add_countP_le hab hnodup hmem
  omega

theorem countP_eraseIdx {γ : Type*} {l : List γ} {k : Nat} {x : γ} (h : l[k]? = some x)
    (p : γ → Bool) : l.countP p = (l.eraseIdx k).countP p + if p x then 1 else 0 := by
  obtain ⟨hk, rfl⟩ := List.getElem?_eq_some_iff.mp h
  rw [← List.Perm.countP_eq p (getElem_cons_eraseIdx_perm hk), countP_cons]

end Lib
