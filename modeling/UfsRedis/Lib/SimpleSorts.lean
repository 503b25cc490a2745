import UfsRedis.Lib.QuickSort

/-!
# Insertion sort and bubble sort in place

* `insertAt_spec`: an element is inserted into the sorted part in front of it;
* `bubbleRounds_spec`: a pass moves a greatest element to its end;
* `insertSort_eq`, `bubbleSort_eq`: both leave the sorted permutation, as `quickSort` does.
-/

namespace Lib

open List

variable {α : Type} [Inhabited α]

section

variable (key : α → Int)

/-- `while (j > 0 && key(list[j-1]) > key(t)) { list[j] = list[j-1]; --j; } list[j] = t`. -/
def insertAt (t : α) : Nat → List α → List α
  | 0, l => l.set 0 t
  | j + 1, l =>
    if key t < key (l.getD j default) then insertAt t j (l.set (j + 1) (l.getD j default))
    else l.set (j + 1) t

/-- `n` rounds, from the position `i` on. -/
def insertRounds (i n : Nat) (l : List α) : List α :=
  (range' i n).foldl (fun l i => insertAt key (l.getD i default) i l) l

def insertSort (l : List α) : List α := insertRounds key 1 (l.length - 1) l

/-- Exchange the elements at `j` and `j + 1` if the first is greater. -/
def bubbleStep (l : List α) (j : Nat) : List α :=
  if key (l.getD (j + 1) default) < key (l.getD j default) then
    (l.set j (l.getD (j + 1) default)).set (j + 1) (l.getD j default)
  else l

/-- `n` rounds of a pass, from the position `j` on. -/
def bubbleRounds (j n : Nat) (l : List α) : List α := (range' j n).foldl (bubbleStep key) l

/-- `k` passes over a list of `len` elements. -/
def bubblePasses (len k : Nat) (l : List α) : List α :=
  (range k).foldl (fun l i => bubbleRounds key 0 (len - i - 1) l) l

def bubbleSort (l : List α) : List α := bubblePasses key l.length (l.length - 1) l

end

variable {key : α → Int} {A B l m : List α} {t x : α}

theorem insertAt_spec (hA : A.Pairwise (key · ≤ key ·)) :
    ∃ C, insertAt key t A.length (A ++ x :: B) = C ++ B ∧ C.Perm (t :: A) ∧
      C.Pairwise (key · ≤ key ·) := by
  -- from the end of the sorted part: an element that is moved leaves its place to the next
  induction A using List.reverseRecOn generalizing x B with
  | nil => exact ⟨[t], rfl, .refl _, pairwise_singleton _ _⟩
  | append_singleton A y ih =>
    have hget : (A ++ [y] ++ x :: B).getD A.length default = y := by simp
    have hset : ∀ z, (A ++ [y] ++ x :: B).set (A.length + 1) z = A ++ y :: z :: B := by simp
    rw [length_append, length_singleton, insertAt, hget, hset, hset]
    rw [pairwise_append] at hA
    by_cases hlt : key t < key y
    · obtain ⟨C, hC, hperm, hCs⟩ := ih (x := y) (B := y :: B) hA.1
      refine ⟨C ++ [y], by simp [if_pos hlt, hC], (hperm.append_right _).trans (by simp), ?_⟩
      have hmem := fun z => hperm.mem_iff (a := z)
      grind
    · exact ⟨A ++ [y] ++ [t], by simp [if_neg hlt], perm_append_singleton _ _, by grind⟩

theorem insertRounds_spec (hA : A.Pairwise (key · ≤ key ·)) :
    (insertRounds key A.length B.length (A ++ B)).Perm (A ++ B) ∧
      (insertRounds key A.length B.length (A ++ B)).Pairwise (key · ≤ key ·) := by
  induction B generalizing A with
  | nil => simpa [insertRounds] using hA
  | cons x B ih =>
    obtain ⟨C, hC, hperm, hCs⟩ := insertAt_spec (t := x) (x := x) (B := B) hA
    have hrounds : insertRounds key A.length (x :: B).length (A ++ x :: B) =
        insertRounds key C.length B.length (C ++ B) := by
      simp [insertRounds, range'_succ, hC, hperm.length_eq]
    rw [hrounds]
    exact ⟨(ih hCs).1.trans ((hperm.append_right B).trans perm_middle.symm), (ih hCs).2⟩

theorem insertSort_eq (hperm : l.Perm m) (hm : m.Pairwise (key · < key ·)) :
    insertSort key l = m := by
  obtain _ | ⟨x, l⟩ := l
  · exact hperm.nil_eq
  have hx : [x].Pairwise (key · ≤ key ·) := pairwise_singleton _ _
  obtain ⟨h1, h2⟩ := insertRounds_spec (B := l) hx
  exact eq_of_sorted_perm h2 (h1.trans hperm) hm

theorem bubbleRounds_spec (key : α → Int) (A : List α) (x : α) (B D : List α) :
    ∃ C y, bubbleRounds key A.length B.length (A ++ x :: (B ++ D)) = A ++ C ++ y :: D ∧
      (C ++ [y]).Perm (x :: B) ∧ ∀ z ∈ C, key z ≤ key y := by
  induction B generalizing A x with
  | nil => exact ⟨[], x, by simp [bubbleRounds], .refl _, by simp⟩
  | cons b B ih =>
    -- the greater one of the two goes on
    obtain ⟨p, q, hstep, hpq, hle⟩ : ∃ p q, bubbleStep key (A ++ x :: (b :: B ++ D)) A.length =
        A ++ [p] ++ q :: (B ++ D) ∧ [p, q].Perm [x, b] ∧ key p ≤ key q := by
      by_cases hlt : key b < key x
      · exact ⟨b, x, by simp [bubbleStep, hlt], .swap _ _ _, hlt.le⟩
      · exact ⟨x, b, by simp [bubbleStep, hlt], .refl _, not_lt.mp hlt⟩
    obtain ⟨C, y, hC, hperm, hmax⟩ := ih (A ++ [p]) q
    refine ⟨p :: C, y, ?_, (hperm.cons p).trans (hpq.append_right B), ?_⟩
    · rw [bubbleRounds, length_cons, range'_succ, foldl_cons, hstep]
      simpa [bubbleRounds] using hC
    have hq : q ∈ C ++ [y] := hperm.mem_iff.mpr mem_cons_self
    grind

theorem bubblePasses_spec (key : α → Int) (hk : k < l.length) :
    ∃ F D, bubblePasses key l.length k l = F ++ D ∧ (F ++ D).Perm l ∧ D.length = k ∧
      D.Pairwise (key · ≤ key ·) ∧ ∀ x ∈ F, ∀ y ∈ D, key x ≤ key y := by
  induction k with
  | zero => exact ⟨l, [], by simp [bubblePasses], by simp, rfl, .nil, by simp⟩
  | succ k ih =>
    obtain ⟨F, D, hF, hperm, hD, hsorted, hle⟩ := ih (by omega)
    have hlen := hperm.length_eq
    obtain _ | ⟨x, B⟩ := F
    · grind
    obtain ⟨C, y, hC, hCperm, hmax⟩ := bubbleRounds_spec key [] x B D
    have hmem : ∀ z ∈ C ++ [y], z ∈ x :: B := fun z => hCperm.mem_iff.mp
    have hy := hle y (hmem y (by simp))
    refine ⟨C, y :: D, ?_, ?_, by simp [hD], pairwise_cons.mpr ⟨hy, hsorted⟩, by grind⟩
    · rw [bubblePasses] at hF ⊢
      rw [range_succ, foldl_append, hF, foldl_cons, foldl_nil,
        show l.length - k - 1 = B.length by grind]
      exact hC
    · exact (by simpa using hCperm.append_right D : (C ++ y :: D).Perm _).trans hperm

theorem bubbleSort_eq (hperm : l.Perm m) (hm : m.Pairwise (key · < key ·)) :
    bubbleSort key l = m := by
  obtain _ | ⟨x, l⟩ := l
  · exact hperm.nil_eq
  obtain ⟨F, D, hF, hFD, hD, hsorted, hle⟩ :=
    bubblePasses_spec (l := x :: l) key (Nat.lt_succ_self _)
  obtain ⟨y, rfl⟩ : ∃ y, F = [y] := length_eq_one_iff.mp (by grind [hFD.length_eq])
  rw [bubbleSort, length_cons, Nat.add_sub_cancel, ← length_cons (a := x), hF]
  exact eq_of_sorted_perm (by grind) (hFD.trans hperm) hm

end Lib
