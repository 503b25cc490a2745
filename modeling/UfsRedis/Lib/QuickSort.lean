import Mathlib.Data.List.GetD
import Mathlib.Data.List.Induction
import Mathlib.Data.List.Sort

/-!
# Quicksort in place

The sort of an array by a key, with the first element of a range as its pivot. The pivot is taken
out, which leaves a hole at its place; elements are moved into the hole from both ends in turn, and
the pivot is put into the last hole.

* `scanDown`, `scanUp`: the two inner loops;
* `partition_spec`, `quickSort_spec`: the range `M` of a list `P ++ M ++ S` is partitioned, and
  sorted;
* `quickSort_eq`: the result is the only sorted permutation, if no two elements have the same key.
-/

namespace Lib

open List

variable {α : Type} [Inhabited α]

/-! ## The sort -/

section

variable (key : α → Int)

/-- `while (low < high && key(list[high]) >= key(t)) high--`. -/
def scanDown (l : List α) (t : α) (low : Nat) : Nat → Nat
  | 0 => 0
  | high + 1 =>
    if low < high + 1 ∧ key t ≤ key (l.getD (high + 1) default) then scanDown l t low high
    else high + 1

/-- `while (low < high && key(list[low]) <= key(t)) low++`, for at most `n` rounds. -/
def scanUp (l : List α) (t : α) (high : Nat) : Nat → Nat → Nat
  | 0, low => low
  | n + 1, low =>
    if low < high ∧ key (l.getD low default) ≤ key t then scanUp l t high n (low + 1) else low

/-- The loop of `partition`, for at most `n` rounds. The hole is at `low`. -/
def partitionLoop (t : α) : Nat → List α → Nat → Nat → List α × Nat
  | 0, l, low, _ => (l, low)
  | n + 1, l, low, high =>
    if low < high then
      let high := scanDown key l t low high
      let l := l.set low (l.getD high default)
      let low := scanUp key l t high (high - low) low
      partitionLoop t n (l.set high (l.getD low default)) low high
    else (l, low)

/-- Partition the positions from `low` to `high`. Returns the place of the pivot. -/
def partition (l : List α) (low high : Nat) : List α × Nat :=
  let t := l.getD low default
  let r := partitionLoop key t (high - low) l low high
  (r.1.set r.2 t, r.2)

/-- Sort the positions from `low` to below `high`, to a depth of at most `n`. -/
def quickSort : Nat → List α → Nat → Nat → List α
  | 0, l, _, _ => l
  | n + 1, l, low, high =>
    if low + 1 < high then
      let r := partition key l low (high - 1)
      quickSort n (quickSort n r.1 low r.2) (r.2 + 1) high
    else l

end

/-! ## The loops -/

section

variable (key : α → Int) (t x : α) (P S : List α) {M : List α} {n : Nat}

/-- The elements `M` after the hole `x`: the last ones, that are passed, are at least the pivot. -/
theorem scanDown_spec (M : List α) :
    ∃ M' R, M = M' ++ R ∧ scanDown key (P ++ x :: (M ++ S)) t P.length (P.length + M.length) =
        P.length + M'.length ∧
      (∀ z ∈ R, key t ≤ key z) ∧ (M' = [] ∨ ∃ N y, M' = N ++ [y] ∧ key y < key t) := by
  induction M using List.reverseRecOn generalizing S with
  | nil =>
    refine ⟨[], [], rfl, ?_, by simp, .inl rfl⟩
    cases h : P.length <;> simp [scanDown]
  | append_singleton M y ih =>
    have hget : (P ++ x :: (M ++ [y] ++ S)).getD (P.length + M.length + 1) default = y := by
      simp [Nat.add_assoc]
    rw [length_append, length_singleton, ← Nat.add_assoc, scanDown, hget]
    by_cases hc : key t ≤ key y
    · obtain ⟨M', R, rfl, hs, hR, hM'⟩ := ih (y :: S)
      refine ⟨M', R ++ [y], by simp, ?_, by grind, hM'⟩
      rw [if_pos ⟨by omega, hc⟩]
      simpa using hs
    refine ⟨M ++ [y], [], by simp, ?_, by simp, .inr ⟨M, y, rfl, by omega⟩⟩
    rw [if_neg fun h => hc h.2, length_append, length_singleton, Nat.add_assoc]

/-- The elements `N` before the hole: the first ones, that are passed, are at most the pivot. -/
theorem scanUp_spec {N : List α} (hn : N.length ≤ n) :
    ∃ L K, N = L ++ K ∧ scanUp key (P ++ (N ++ S)) t (P.length + N.length) n P.length =
        P.length + L.length ∧ (∀ z ∈ L, key z ≤ key t) ∧ ∀ z ∈ K.head?, key t < key z := by
  induction N generalizing P n with
  | nil => exact ⟨[], [], rfl, by cases n <;> simp [scanUp], by simp, by simp⟩
  | cons y N ih =>
    obtain _ | n := n
    · cases hn
    have hget : (P ++ (y :: N ++ S)).getD P.length default = y := by simp
    rw [scanUp, hget]
    by_cases hc : key y ≤ key t
    · obtain ⟨L, K, rfl, hs, hL, hK⟩ := ih (P ++ [y]) (Nat.le_of_succ_le_succ hn)
      refine ⟨y :: L, K, rfl, ?_, by grind, hK⟩
      rw [if_pos ⟨by simp, hc⟩]
      simpa [Nat.add_assoc, Nat.add_comm 1] using hs
    refine ⟨[], y :: N, rfl, ?_, by simp, by simpa using hc⟩
    rw [if_neg fun h => hc h.2, length_nil, Nat.add_zero]

/-- A round of the loop: `L` has been passed from below and `R` from above, and the hole is between
`L` and the rest `K`. -/
theorem partitionLoop_round (n : Nat) (hM : M ≠ []) :
    ∃ L y K R, (L ++ (K ++ R)).Perm M ∧ K.length < M.length ∧
      (∀ z ∈ L, key z ≤ key t) ∧ (∀ z ∈ R, key t ≤ key z) ∧
      partitionLoop key t (n + 1) (P ++ x :: (M ++ S)) P.length (P.length + M.length) =
        partitionLoop key t n (P ++ L ++ y :: (K ++ (R ++ S))) (P ++ L).length
          ((P ++ L).length + K.length) := by
  have hpos := length_pos_iff.mpr hM
  rw [partitionLoop, if_pos (by omega)]
  obtain ⟨M', R, rfl, hdown, hR, rfl | ⟨N, y, rfl, hy⟩⟩ := scanDown_spec key t x P S M
  · refine ⟨[], x, [], R, by simp, hpos, by simp, hR, ?_⟩
    simp only [hdown]
    simp [scanUp]
  -- `y` is put into the hole, and passed by the second loop
  obtain ⟨L, K, hLK, hup, hL, hK⟩ :=
    scanUp_spec key t P (y :: (R ++ S)) (le_refl (y :: N).length)
  have hset : (P ++ x :: (N ++ [y] ++ R ++ S)).set P.length
      ((P ++ x :: (N ++ [y] ++ R ++ S)).getD (P.length + (N ++ [y]).length) default) =
        P ++ (y :: N ++ y :: (R ++ S)) := by
    simp
  have hlen : (N ++ [y]).length = (y :: N).length := by simp
  simp only [hdown, hset]
  rw [hlen, Nat.add_sub_cancel_left, hup]
  have hperm : (L ++ (K ++ R)).Perm (N ++ [y] ++ R) := by
    rw [← append_assoc, ← hLK]
    exact (perm_append_singleton y N).symm.append_right R
  have hNR := hperm.length_eq
  have hne : L ≠ [] := by
    rintro rfl
    obtain rfl : K = y :: N := hLK.symm
    exact absurd (hK y rfl) (by omega)
  have := length_pos_iff.mpr hne
  obtain _ | ⟨z, K⟩ := K
  · refine ⟨L, y, [], R, hperm, hpos, hL, hR, ?_⟩
    rw [append_nil] at hLK
    simp [hLK]
  refine ⟨L, z, K ++ [z], R, ((perm_append_singleton z K).append_right R).append_left L |>.trans
    hperm, ?_, hL, hR, ?_⟩
  · simp only [length_append, length_cons] at *
    omega
  rw [hLK]
  simp
  rw [Nat.add_assoc P.length]

theorem partitionLoop_spec (hn : M.length ≤ n) :
    ∃ L y R, (L ++ R).Perm M ∧ (∀ z ∈ L, key z ≤ key t) ∧ (∀ z ∈ R, key t ≤ key z) ∧
      partitionLoop key t n (P ++ x :: (M ++ S)) P.length (P.length + M.length) =
        (P ++ L ++ y :: (R ++ S), (P ++ L).length) := by
  induction n generalizing P x M S with
  | zero =>
    obtain rfl := length_eq_zero_iff.mp (Nat.le_zero.mp hn)
    exact ⟨[], x, [], .refl _, by simp, by simp, by simp [partitionLoop]⟩
  | succ n ih =>
    by_cases hM : M = []
    · subst hM
      exact ⟨[], x, [], .refl _, by simp, by simp, by simp [partitionLoop]⟩
    obtain ⟨L, y, K, R, hperm, hlt, hL, hR, hround⟩ := partitionLoop_round key t x P S n hM
    obtain ⟨L', y', R', hperm', hL', hR', hloop⟩ := ih y (P ++ L) (R ++ S) (M := K) (by omega)
    refine ⟨L ++ L', y', R' ++ R, ?_, by grind, by grind, ?_⟩
    · have := (hperm'.append_right R).append_left L
      simp only [append_assoc] at this ⊢
      exact this.trans hperm
    rw [hround, hloop]
    simp

/-- **`partition`** puts the pivot between the smaller and the larger elements of the range. -/
theorem partition_spec (M : List α) :
    ∃ L R, (L ++ R).Perm M ∧ (∀ z ∈ L, key z ≤ key t) ∧ (∀ z ∈ R, key t ≤ key z) ∧
      partition key (P ++ t :: (M ++ S)) P.length (P.length + M.length) =
        (P ++ L ++ t :: (R ++ S), (P ++ L).length) := by
  obtain ⟨L, y, R, hperm, hL, hR, hloop⟩ := partitionLoop_spec key t t P S (le_refl M.length)
  have hget : (P ++ t :: (M ++ S)).getD P.length default = t := by simp
  refine ⟨L, R, hperm, hL, hR, ?_⟩
  rw [partition, hget, Nat.add_sub_cancel_left, hloop]
  simp

theorem quickSort_spec (hn : M.length ≤ n) :
    ∃ m, quickSort key n (P ++ (M ++ S)) P.length (P.length + M.length) = P ++ (m ++ S) ∧
      m.Perm M ∧ m.Pairwise (key · ≤ key ·) := by
  induction n generalizing P M S with
  | zero =>
    obtain rfl := length_eq_zero_iff.mp (Nat.le_zero.mp hn)
    exact ⟨[], rfl, .refl _, .nil⟩
  | succ n ih =>
    rw [quickSort]
    split
    · obtain _ | ⟨t, M⟩ := M
      · next hlt => exact absurd hlt (by simp)
      obtain ⟨L, R, hperm, hL, hR, hpart⟩ := partition_spec key t P S M
      have hlen := hperm.length_eq
      rw [length_append] at hlen
      rw [length_cons] at hn
      obtain ⟨L', hsort, hpermL, hsL⟩ := ih P (t :: (R ++ S)) (M := L) (by omega)
      obtain ⟨R', hsort', hpermR, hsR⟩ := ih (P ++ L' ++ [t]) S (M := R) (by omega)
      refine ⟨L' ++ t :: R', ?_, ?_, ?_⟩
      · have hlow : P.length + L.length + 1 = (P ++ L' ++ [t]).length := by
          simp [hpermL.length_eq, Nat.add_assoc]
        have hhigh : P.length + M.length + 1 = (P ++ L' ++ [t]).length + R.length := by omega
        have hcons : P ++ (L' ++ t :: (R ++ S)) = P ++ L' ++ [t] ++ (R ++ S) := by simp
        rw [length_cons, ← Nat.add_assoc, Nat.add_sub_cancel, cons_append, hpart]
        dsimp only
        rw [append_assoc, length_append, hsort, hlow, hhigh, hcons, hsort']
        simp
      · exact (hpermL.append (hpermR.cons t)).trans (perm_middle.trans (hperm.cons t))
      have hmemL := fun z => hpermL.mem_iff (a := z)
      have hmemR := fun z => hpermR.mem_iff (a := z)
      grind
    refine ⟨M, rfl, .refl _, ?_⟩
    rcases M with _ | ⟨t, _ | ⟨u, M⟩⟩
    · exact .nil
    · exact pairwise_singleton _ _
    · next hlt => exact absurd hlt (by simp)

end

variable {key : α → Int} {l : List α} {n : Nat}

omit [Inhabited α] in
/-- A sorted list is determined by its elements, if their keys differ. -/
theorem eq_of_sorted_perm {m} (hl : l.Pairwise (key · ≤ key ·)) (hperm : l.Perm m)
    (hm : m.Pairwise (key · < key ·)) : l = m := by
  have hinj := inj_on_of_nodup_map (pairwise_map.mpr (hm.imp fun h => h.ne))
  exact hperm.eq_of_pairwise (fun x y hx hy hxy hyx =>
    hinj (hperm.subset hx) hy (hxy.antisymm hyx)) hl (hm.imp fun h => h.le)

/-- **The result of `quickSort`** is the sorted permutation, if the keys of the elements differ. -/
theorem quickSort_eq {m} (hn : l.length ≤ n) (hperm : l.Perm m)
    (hsorted : m.Pairwise (key · < key ·)) : quickSort key n l 0 l.length = m := by
  obtain ⟨r, hr, hrl, hrs⟩ := quickSort_spec key [] [] hn
  have hr : quickSort key n l 0 l.length = r := by simpa using hr
  rw [hr]
  exact eq_of_sorted_perm hrs (hrl.trans hperm) hsorted

end Lib
