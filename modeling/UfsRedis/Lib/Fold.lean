import Mathlib.Data.List.Forall2

/-!
# Rules for folds

A loop over a list with an accumulator: what holds of the accumulator all the way (`P`), and what
each element has done once it is processed (`Q`) and no later step undoes.
-/

namespace Lib

open List

variable {α β ε : Type*} {P : β → Prop} {Q : α → β → Prop} {b b' : β} {f : β → α → Except ε β}

theorem eq_ok_of_bind {α β : Type u} {x : Except ε α} {f : α → Except ε β} {b : β}
    (h : (x >>= f) = .ok b) : ∃ a, x = .ok a ∧ f a = .ok b := by
  obtain e | a := x
  · cases h
  exact ⟨a, rfl, h⟩

theorem foldlM_rule {l : List α} (hb : P b)
    (step : ∀ b, P b → ∀ a ∈ l, ∃ b', f b a = .ok b' ∧ P b' ∧ Q a b' ∧ ∀ a', Q a' b → Q a' b') :
    ∃ b', l.foldlM f b = .ok b' ∧ P b' ∧ (∀ a ∈ l, Q a b') ∧ ∀ a', Q a' b → Q a' b' := by
  induction l generalizing b with
  | nil => exact ⟨b, rfl, hb, by simp, fun _ h => h⟩
  | cons x l ih =>
    obtain ⟨b1, hf, hp, hq, hkeep⟩ := step b hb x (by simp)
    obtain ⟨b2, hf', hp', hall, hkeep'⟩ := ih hp fun b hb a ha => step b hb a (by simp [ha])
    refine ⟨b2, ?_, hp', fun a ha => ?_, fun a' h => hkeep' a' (hkeep a' h)⟩
    · rw [foldlM_cons, hf]
      exact hf'
    rcases mem_cons.mp ha with rfl | ha
    · exact hkeep' a hq
    · exact hall a ha

theorem foldl_rule {f : β → α → β} {l : List α} (hb : P b)
    (step : ∀ b, P b → ∀ a ∈ l, P (f b a) ∧ Q a (f b a) ∧ ∀ a', Q a' b → Q a' (f b a)) :
    P (l.foldl f b) ∧ (∀ a ∈ l, Q a (l.foldl f b)) ∧ ∀ a', Q a' b → Q a' (l.foldl f b) := by
  obtain ⟨b', hfold, h⟩ := foldlM_rule (ε := Empty) (f := fun b a => .ok (f b a)) hb
    fun b hb a ha => ⟨_, rfl, step b hb a ha⟩
  rw [← Except.ok.inj ((List.foldlM_pure (m := Except Empty)).symm.trans hfold)] at h
  exact h

theorem foldlM_simulates {γ : Type*} {R : γ → β → Prop}
    {f' : γ → α → Except ε γ} {l : List α} {c : γ} (hc : R c b)
    (step : ∀ b c, ∀ a ∈ l, ∀ b', R c b → f b a = .ok b' → ∃ c', f' c a = .ok c' ∧ R c' b')
    (h : l.foldlM f b = .ok b') : ∃ c', l.foldlM f' c = .ok c' ∧ R c' b' := by
  induction l generalizing b c with
  | nil =>
    cases h
    exact ⟨c, rfl, hc⟩
  | cons x l ih =>
    rw [foldlM_cons] at h
    obtain ⟨b1, hf, h⟩ := eq_ok_of_bind h
    obtain ⟨c1, hf', hc1⟩ := step b c x (by simp) b1 hc hf
    obtain ⟨c2, hl, hc2⟩ := ih hc1 (fun b c a ha => step b c a (by simp [ha])) h
    refine ⟨c2, ?_, hc2⟩
    rw [foldlM_cons, hf']
    exact hl

theorem foldlM_ok {l : List α} (hb : P b)
    (step : ∀ b, ∀ a ∈ l, ∀ b', P b → f b a = .ok b' → P b') (h : l.foldlM f b = .ok b') :
    P b' := by
  induction l generalizing b with
  | nil =>
    cases h
    exact hb
  | cons x l ih =>
    rw [foldlM_cons] at h
    obtain ⟨b1, hf, h⟩ := eq_ok_of_bind h
    exact ih (step b x mem_cons_self b1 hb hf) (fun b a ha => step b a (mem_cons_of_mem x ha)) h

theorem mapM_ok {ε α β : Type} {f : α → Except ε β} {l : List α} (h : ∀ a ∈ l, ∃ b, f a = .ok b) :
    ∃ l', l.mapM f = .ok l' ∧ List.Forall₂ (fun a b => f a = .ok b) l l' := by
  induction l with
  | nil => exact ⟨[], rfl, .nil⟩
  | cons a l ih =>
    obtain ⟨b, hb⟩ := h a (by simp)
    obtain ⟨l', hl', hall⟩ := ih fun a ha => h a (by simp [ha])
    refine ⟨b :: l', ?_, .cons hb hall⟩
    rw [mapM_cons, hb, hl']
    rfl

theorem forall₂_of_mapM {ε α β : Type} {f : α → Except ε β} {l : List α} {l' : List β}
    (h : l.mapM f = .ok l') : List.Forall₂ (fun a b => f a = .ok b) l l' := by
  induction l generalizing l' with
  | nil =>
    cases h
    exact .nil
  | cons a l ih =>
    rw [mapM_cons] at h
    obtain ⟨b, ha, h⟩ := eq_ok_of_bind h
    obtain ⟨l'', hl, h⟩ := eq_ok_of_bind h
    cases h
    exact .cons ha (ih hl)

theorem filterM_ok {ε α : Type} {f : α → Except ε Bool} {g : α → Bool} {l : List α}
    (h : ∀ a ∈ l, f a = .ok (g a)) : l.filterM f = .ok (l.filter g) := by
  have haux : ∀ (l acc : List α), (∀ a ∈ l, f a = .ok (g a)) →
      l.filterAuxM f acc = .ok ((l.filter g).reverse ++ acc) := by
    intro l
    induction l with
    | nil => intro acc _; rfl
    | cons a l ih =>
      intro acc h
      rw [List.filterAuxM, h a (by simp)]
      refine (ih _ fun b hb => h b (by simp [hb])).trans ?_
      cases hg : g a <;> simp [hg]
  rw [List.filterM, haux l [] h]
  simp [bind, Except.bind, pure, Except.pure]

end Lib
