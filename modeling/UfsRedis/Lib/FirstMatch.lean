import Mathlib.Data.List.Forall2

/-!
# The first match in a list

Tables that are searched from the front, and whose first match is changed in place.
-/

namespace Lib

open List

/-- An element of a list with a new element at `i`: the new one, or an old one at another index. -/
theorem getElem?_set_cases {β : Type*} {l : List β} {i j : Nat} {a b : β}
    (h : (l.set i a)[j]? = some b) : j = i ∧ b = a ∨ j ≠ i ∧ l[j]? = some b := by
  rw [getElem?_set] at h
  by_cases hij : i = j
  · subst hij
    by_cases hi : i < l.length
    · exact .inl ⟨rfl, by simpa [hi, eq_comm] using h⟩
    · simp [hi] at h
  · exact .inr ⟨fun e => hij e.symm, by simpa [hij] using h⟩

variable {α : Type}

/-- Change the first element with `p`. -/
def updateFirst (p : α → Bool) (f : α → α) : List α → List α
  | [] => []
  | a :: l => if p a then f a :: l else a :: updateFirst p f l

variable {p q : α → Bool} {f : α → α} {l : List α} {a : α}

theorem find?_updateFirst_self (hf : ∀ a, p a → p (f a)) :
    (updateFirst p f l).find? p = (l.find? p).map f := by
  induction l with
  | nil => rfl
  | cons a l ih =>
    rw [updateFirst]
    by_cases ha : p a = true
    · simp [ha, hf a ha]
    · simp [ha, ih]

theorem find?_updateFirst_of_disjoint (h : ∀ a, p a → ¬ q a) (hf : ∀ a, p a → ¬ q (f a)) :
    (updateFirst p f l).find? q = l.find? q := by
  induction l with
  | nil => rfl
  | cons a l ih =>
    rw [updateFirst]
    by_cases ha : p a = true
    · simp [ha, h a ha, hf a ha]
    · rw [if_neg ha, find?_cons, find?_cons, ih]

theorem mem_updateFirst (h : a ∈ updateFirst p f l) : a ∈ l ∨ ∃ b ∈ l, p b ∧ a = f b := by
  induction l with
  | nil => exact .inl h
  | cons b l ih =>
    rw [updateFirst] at h
    split at h
    · rename_i hb
      rw [mem_cons] at h
      rcases h with rfl | h
      · exact .inr ⟨b, by simp, hb, rfl⟩
      · exact .inl (by simp [h])
    rw [mem_cons] at h
    rcases h with rfl | h
    · exact .inl (by simp)
    rcases ih h with h | ⟨c, hc, hpc, rfl⟩
    · exact .inl (by simp [h])
    · exact .inr ⟨c, by simp [hc], hpc, rfl⟩

theorem map_updateFirst {β : Type} {h : α → β} (hf : ∀ a, h (f a) = h a) :
    (updateFirst p f l).map h = l.map h := by
  induction l with
  | nil => rfl
  | cons a l ih =>
    rw [updateFirst]
    by_cases ha : p a = true
    · simp [ha, hf]
    · simp [ha, ih]

section

variable {β γ : Type} {R : α → β → Prop} {l' : List β} (hl : List.Forall₂ R l l')
include hl

theorem map_forall₂ {h : α → γ} {k : β → γ} (hR : ∀ a b, R a b → k b = h a) :
    l'.map k = l.map h := by
  induction hl with
  | nil => rfl
  | cons hab _ ih => rw [map_cons, map_cons, hR _ _ hab, ih]

theorem exists_mem_forall₂ (ha : a ∈ l) : ∃ b ∈ l', R a b := by
  induction hl with
  | nil => exact absurd ha not_mem_nil
  | @cons a' b l l' hab _ ih =>
    rcases mem_cons.mp ha with rfl | ha
    · exact ⟨b, by simp, hab⟩
    obtain ⟨b', hb', hR⟩ := ih ha
    exact ⟨b', by simp [hb'], hR⟩

theorem find?_forall₂ {r} (hR : ∀ a b, R a b → r b = q a) :
    (∀ a, l.find? q = some a → ∃ b, R a b ∧ l'.find? r = some b) ∧
      (l.find? q = none → l'.find? r = none) := by
  induction hl with
  | nil => simp
  | @cons a b l l' hab _ ih =>
    rw [find?_cons, find?_cons, hR a b hab]
    cases q a with
    | true => exact ⟨fun c hc => ⟨b, Option.some.inj hc ▸ hab, rfl⟩, by simp⟩
    | false => exact ih

end

theorem find?_of_unique (ha : a ∈ l) (hp : p a) (h : ∀ b ∈ l, p b → b = a) :
    l.find? p = some a := by
  rcases hf : l.find? p with _ | b
  · exact absurd hp (find?_eq_none.mp hf a ha)
  rw [h b (mem_of_find?_eq_some hf) (find?_some hf)]

end Lib
