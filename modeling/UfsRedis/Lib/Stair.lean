import Mathlib.Data.List.GetD
import Mathlib.Tactic.ByContra

/-!
# Staircases

Two parties perform operations, each a list of its own. An operation is performed in a context: all
earlier operations of its side and the first `k` of the other. A state is a pair of counts, how
many operations of each side it has; it exists if each operation in it has its context in it.

`ctx s` lists the contexts of side `s`. The states `Mem ctx` form a staircase in the plane, and from
a state one can step to the right or up while the next state exists.
-/

namespace Lib

/-- One of the two parties. -/
inductive Side where
  | l
  | r
  deriving DecidableEq, Repr

namespace Side

def flip : Side → Side
  | .l => .r
  | .r => .l

@[simp] theorem flip_flip (s : Side) : s.flip.flip = s := by cases s <;> rfl

@[simp] theorem flip_ne (s : Side) : s.flip ≠ s := by cases s <;> simp [flip]

@[simp] theorem ne_flip (s : Side) : s ≠ s.flip := by cases s <;> simp [flip]

theorem eq_or_eq_flip (s t : Side) : t = s ∨ t = s.flip := by cases s <;> cases t <;> simp [flip]

end Side

/-- How many operations of each side a state has. -/
@[ext] structure Coord where
  l : Nat
  r : Nat
  deriving DecidableEq, Repr

namespace Coord

def get (c : Coord) : Side → Nat
  | .l => c.l
  | .r => c.r

def step (c : Coord) : Side → Coord
  | .l => ⟨c.l + 1, c.r⟩
  | .r => ⟨c.l, c.r + 1⟩

/-- The state with the counts `a` of side `s` and `b` of the other. -/
def mk' (s : Side) (a b : Nat) : Coord :=
  match s with
  | .l => ⟨a, b⟩
  | .r => ⟨b, a⟩

def zero : Coord := ⟨0, 0⟩

variable {c d : Coord} {s t : Side} {a b : Nat}

@[simp] theorem get_zero (s : Side) : zero.get s = 0 := by cases s <;> rfl

@[simp] theorem get_step_self (c : Coord) (s : Side) : (c.step s).get s = c.get s + 1 := by
  cases s <;> rfl

@[simp] theorem get_step_flip (c : Coord) (s : Side) : (c.step s).get s.flip = c.get s.flip := by
  cases s <;> rfl

@[simp] theorem get_step_flip' (c : Coord) (s : Side) : (c.step s.flip).get s = c.get s := by
  cases s <;> rfl

@[simp] theorem get_mk'_self : (mk' s a b).get s = a := by cases s <;> rfl

@[simp] theorem get_mk'_flip : (mk' s a b).get s.flip = b := by cases s <;> rfl

theorem ext_get (s : Side) (h₁ : c.get s = d.get s) (h₂ : c.get s.flip = d.get s.flip) : c = d := by
  cases s with
  | l => exact Coord.ext h₁ h₂
  | r => exact Coord.ext h₂ h₁

theorem mk'_get (c : Coord) (s : Side) : mk' s (c.get s) (c.get s.flip) = c :=
  ext_get s (by simp) (by simp)

@[simp] theorem step_mk' : (mk' s a b).step s = mk' s (a + 1) b := by cases s <;> rfl

@[simp] theorem step_flip_mk' : (mk' s a b).step s.flip = mk' s a (b + 1) := by cases s <;> rfl

theorem step_comm (c : Coord) (s t : Side) : (c.step s).step t = (c.step t).step s := by
  cases s <;> cases t <;> rfl

theorem step_inj (h : c.step s = d.step s) : c = d := by
  refine ext_get s ?_ ?_
  · have := congrArg (get · s) h
    simpa using this
  have := congrArg (get · s.flip) h
  simpa using this

theorem step_ne (c : Coord) (s : Side) : c.step s ≠ c := by
  intro h
  have := congrArg (get · s) h
  simp at this

theorem exists_pred (h : 0 < c.get s) : ∃ d : Coord, d.step s = c := by
  refine ⟨mk' s (c.get s - 1) (c.get s.flip), ?_⟩
  rw [step_mk', show c.get s - 1 + 1 = c.get s by omega, mk'_get]

end Coord

open Coord List

/-- The context of operation `i` of side `s`. -/
def ctxAt (ctx : Side → List Nat) (s : Side) (i : Nat) : Nat := (ctx s).getD i 0

/-- The contexts of the operations of a side grow, have only operations of the other side that
exist, and are not circular. -/
structure Stair (ctx : Side → List Nat) : Prop where
  mono : ∀ s i j, i ≤ j → j < (ctx s).length → ctxAt ctx s i ≤ ctxAt ctx s j
  bound : ∀ s i, i < (ctx s).length → ctxAt ctx s i ≤ (ctx s.flip).length
  acyclic : ∀ s i j, i < (ctx s).length → j < (ctx s.flip).length → j < ctxAt ctx s i →
    ctxAt ctx s.flip j ≤ i

/-- The state exists: it has the context of each operation in it. -/
def Mem (ctx : Side → List Nat) (c : Coord) : Prop :=
  ∀ s, c.get s ≤ (ctx s).length ∧ ∀ i < c.get s, ctxAt ctx s i ≤ c.get s.flip

def last (ctx : Side → List Nat) : Coord := ⟨(ctx .l).length, (ctx .r).length⟩

variable {ctx : Side → List Nat} {c d : Coord} {s : Side}

@[simp] theorem get_last (ctx : Side → List Nat) (s : Side) :
    (last ctx).get s = (ctx s).length := by
  cases s <;> rfl

theorem mem_zero (ctx : Side → List Nat) : Mem ctx zero := fun s => by simp

theorem mem_last (h : Stair ctx) : Mem ctx (last ctx) := fun s => by
  simpa using h.bound s

theorem mem_step (hc : Mem ctx c) :
    Mem ctx (c.step s) ↔ c.get s < (ctx s).length ∧ ctxAt ctx s (c.get s) ≤ c.get s.flip := by
  constructor
  · intro h
    have hs := h s
    rw [get_step_self, get_step_flip] at hs
    exact ⟨hs.1, hs.2 _ (Nat.lt_succ_self _)⟩
  rintro ⟨hlt, hctx⟩ t
  rcases s.eq_or_eq_flip t with rfl | rfl
  · rw [get_step_self, get_step_flip]
    refine ⟨hlt, fun i hi => ?_⟩
    rcases Nat.lt_succ_iff_lt_or_eq.mp hi with hi | rfl
    · exact (hc t).2 i hi
    · exact hctx
  rw [get_step_flip, Side.flip_flip, get_step_self]
  refine ⟨(hc s.flip).1, fun i hi => ?_⟩
  have := (hc s.flip).2 i hi
  rw [Side.flip_flip] at this
  omega

/-- On the way to a state `d`, if side `s` cannot step towards it, the other side can. -/
theorem Mem.toward (h : Stair ctx) (hc : Mem ctx c) (hd : Mem ctx d)
    (hle : ∀ t, c.get t ≤ d.get t) (hne : c ≠ d) (hs : ¬ (c.get s < d.get s ∧ Mem ctx (c.step s))) :
    c.get s.flip < d.get s.flip ∧ Mem ctx (c.step s.flip) := by
  have hds := hd s
  have hdf := hd s.flip
  have hl := hle s
  have hlf := hle s.flip
  rw [Side.flip_flip] at hdf
  rw [mem_step hc] at hs
  rw [mem_step hc, Side.flip_flip]
  by_cases hlt : c.get s < d.get s
  · have hctx := hds.2 _ hlt
    have hlt' : c.get s.flip < ctxAt ctx s (c.get s) := by
      by_contra hge
      exact hs ⟨hlt, by omega, by omega⟩
    have hlen : c.get s.flip < (ctx s.flip).length := by omega
    exact ⟨by omega, hlen, h.acyclic s _ _ (by omega) hlen hlt'⟩
  have heq : c.get s = d.get s := by omega
  have hltf : c.get s.flip < d.get s.flip := by
    have : c.get s.flip ≠ d.get s.flip := fun e => hne (ext_get s heq e)
    omega
  have := hdf.2 _ hltf
  exact ⟨hltf, by omega, by omega⟩

theorem eq_last_of_no_step (h : Stair ctx) (hc : Mem ctx c) (hs : ∀ s, ¬ Mem ctx (c.step s)) :
    c = last ctx := by
  by_contra hne
  have := Mem.toward (s := .l) h hc (mem_last h) (fun t => by simpa using (hc t).1) hne
    (fun h' => hs .l h'.2)
  exact hs .r this.2

/-! ## A new operation -/

/-- The contexts with one more operation of side `s`. -/
def push (ctx : Side → List Nat) (s : Side) (k : Nat) : Side → List Nat := fun t =>
  if t = s then ctx t ++ [k] else ctx t

section

variable {c : Coord} {k : Nat}

@[simp] theorem push_self (ctx : Side → List Nat) (s : Side) (k : Nat) :
    push ctx s k s = ctx s ++ [k] := if_pos rfl

@[simp] theorem push_flip (ctx : Side → List Nat) (s : Side) (k : Nat) :
    push ctx s k s.flip = ctx s.flip := if_neg (Side.flip_ne s)

theorem ctxAt_push_lt (hi : i < (ctx s).length) : ctxAt (push ctx s k) s i = ctxAt ctx s i := by
  simp [ctxAt, getElem?_append_left hi]

theorem ctxAt_push_length : ctxAt (push ctx s k) s (ctx s).length = k := by
  simp [ctxAt]

@[simp] theorem ctxAt_push_flip (i : Nat) : ctxAt (push ctx s k) s.flip i = ctxAt ctx s.flip i := by
  simp [ctxAt]

/-- A new operation keeps a staircase, if its context has that of the operation before. -/
theorem Stair.push (h : Stair ctx) (hk : k ≤ (ctx s.flip).length)
    (hmono : ∀ i < (ctx s).length, ctxAt ctx s i ≤ k) : Stair (push ctx s k) := by
  -- an operation of side `s` is old, or the new one
  have hcases : ∀ i, i < (Lib.push ctx s k s).length → (i < (ctx s).length ∧
      ctxAt (Lib.push ctx s k) s i = ctxAt ctx s i) ∨
      (i = (ctx s).length ∧ ctxAt (Lib.push ctx s k) s i = k) := by
    intro i hi
    rw [push_self, length_append, length_singleton] at hi
    by_cases hlt : i < (ctx s).length
    · exact .inl ⟨hlt, ctxAt_push_lt hlt⟩
    have : i = (ctx s).length := by omega
    exact .inr ⟨this, this ▸ ctxAt_push_length⟩
  have hlen : (ctx s).length ≤ (Lib.push ctx s k s).length := by simp
  refine ⟨fun t i j hij hj => ?_, fun t i hi => ?_, fun t i j hi hj hji => ?_⟩
  · rcases s.eq_or_eq_flip t with rfl | rfl
    · rcases hcases j hj with ⟨hlt, he⟩ | ⟨rfl, he⟩
      · rw [he, ctxAt_push_lt (by omega)]
        exact h.mono t i j hij hlt
      rw [he]
      rcases Nat.lt_or_eq_of_le hij with hlt | rfl
      · rw [ctxAt_push_lt hlt]; exact hmono i hlt
      · exact Nat.le_of_eq he
    rw [push_flip] at hj
    simpa using h.mono _ i j hij hj
  · rcases s.eq_or_eq_flip t with rfl | rfl
    · rw [push_flip]
      rcases hcases i hi with ⟨hlt, he⟩ | ⟨rfl, he⟩
      · rw [he]; exact h.bound t i hlt
      · rw [he]; exact hk
    rw [push_flip] at hi
    have := h.bound _ i hi
    rw [Side.flip_flip] at this ⊢
    rw [ctxAt_push_flip]
    omega
  rcases s.eq_or_eq_flip t with rfl | rfl
  · rw [push_flip] at hj
    rw [ctxAt_push_flip]
    rcases hcases i hi with ⟨hlt, he⟩ | ⟨rfl, he⟩
    · exact h.acyclic t i j hlt hj (he ▸ hji)
    have := h.bound _ j hj
    rwa [Side.flip_flip] at this
  rw [push_flip] at hi
  rw [Side.flip_flip] at hj ⊢
  rw [ctxAt_push_flip] at hji
  rcases hcases j hj with ⟨hlt, he⟩ | ⟨rfl, he⟩
  · rw [he]
    have := h.acyclic s.flip i j hi (by rwa [Side.flip_flip]) hji
    rwa [Side.flip_flip] at this
  have := h.bound _ i hi
  rw [Side.flip_flip] at this
  omega

/-- The states that a new operation adds: one for each state of the other side that has its
context. -/
theorem mem_push (h : Stair ctx) (hmono : ∀ i < (ctx s).length, ctxAt ctx s i ≤ k) :
    Mem (push ctx s k) c ↔ Mem ctx c ∨
      (c.get s = (ctx s).length + 1 ∧ k ≤ c.get s.flip ∧ c.get s.flip ≤ (ctx s.flip).length) := by
  have hside : ∀ t, (t = s ∨ t = s.flip) := s.eq_or_eq_flip
  constructor
  · intro hc
    have hs := hc s
    have hf := hc s.flip
    rw [push_self, length_append, length_singleton] at hs
    rw [push_flip, Side.flip_flip] at hf
    simp only [ctxAt_push_flip] at hf
    by_cases hlt : c.get s ≤ (ctx s).length
    · refine .inl fun t => ?_
      rcases hside t with rfl | rfl
      · exact ⟨hlt, fun i hi => by have := hs.2 i hi; rwa [ctxAt_push_lt (by omega)] at this⟩
      · rw [Side.flip_flip]; exact hf
    have heq : c.get s = (ctx s).length + 1 := by omega
    have := hs.2 (ctx s).length (by omega)
    rw [ctxAt_push_length] at this
    exact .inr ⟨heq, this, hf.1⟩
  rintro (hc | ⟨heq, hk, hlen⟩) t
  · rcases hside t with rfl | rfl
    · have := hc t
      rw [push_self, length_append]
      exact ⟨by omega, fun i hi => by rw [ctxAt_push_lt (by omega)]; exact this.2 i hi⟩
    have := hc s.flip
    simpa using this
  rcases hside t with rfl | rfl
  · rw [push_self, length_append, heq]
    refine ⟨by simp, fun i hi => ?_⟩
    rcases Nat.lt_succ_iff_lt_or_eq.mp hi with hi | rfl
    · rw [ctxAt_push_lt hi]
      exact Nat.le_trans (hmono i hi) hk
    · rwa [ctxAt_push_length]
  rw [push_flip, Side.flip_flip, heq]
  refine ⟨hlen, fun i hi => ?_⟩
  have := h.bound s.flip i (by omega)
  rw [Side.flip_flip] at this
  rw [ctxAt_push_flip]
  omega

end

/-! ## Induction -/

/-- If the state before the last operation of side `s` does not exist, it lacks the context of the
last operation of the other side. -/
theorem ctxAt_of_not_mem (h : Stair ctx) (hc : Mem ctx (d.step s)) (hd : ¬ Mem ctx d) :
    ∃ j, d.get s.flip = j + 1 ∧ ctxAt ctx s.flip j = d.get s + 1 := by
  have hs := hc s
  have hf := hc s.flip
  rw [get_step_self, get_step_flip] at hs
  rw [get_step_flip, Side.flip_flip, get_step_self] at hf
  obtain ⟨j, hj, hgt⟩ : ∃ j, j < d.get s.flip ∧ d.get s < ctxAt ctx s.flip j := by
    by_contra hno
    refine hd fun t => ?_
    rcases s.eq_or_eq_flip t with rfl | rfl
    · exact ⟨by omega, fun i hi => hs.2 i (by omega)⟩
    rw [Side.flip_flip]
    refine ⟨hf.1, fun i hi => ?_⟩
    by_contra hlt
    exact hno ⟨i, hi, by omega⟩
  have hjle := h.mono s.flip j (d.get s.flip - 1) (by omega) (by omega)
  have hmax := hf.2 (d.get s.flip - 1) (by omega)
  exact ⟨d.get s.flip - 1, by omega, by omega⟩

theorem mem_of_mem_steps (hl : Mem ctx (c.step .l)) (hr : Mem ctx (c.step .r)) : Mem ctx c := by
  intro t
  have h1 := hr t
  have h2 := hl t
  cases t with
  | l => exact ⟨h1.1, fun i hi => h2.2 i (Nat.lt_succ_of_lt hi)⟩
  | r => exact ⟨h2.1, fun i hi => h1.2 i (Nat.lt_succ_of_lt hi)⟩

/-- How a state is reached: it is the first one, or the last operation of one of the sides is
performed in its own context, or it closes a square. -/
theorem Stair.reached (h : Stair ctx) (hc : Mem ctx c) : c = zero ∨
      (∃ d s, d.step s = c ∧ Mem ctx d ∧ ctxAt ctx s (d.get s) = d.get s.flip) ∨
      ∃ d, (d.step .l).step .r = c ∧ Mem ctx d ∧ Mem ctx (d.step .l) ∧ Mem ctx (d.step .r) := by
  by_cases hzero : c = zero
  · exact .inl hzero
  -- a side that has an operation in `c`
  obtain ⟨s, hs⟩ : ∃ s, 0 < c.get s := by
    by_contra hno
    have h0 : ∀ s, c.get s = zero.get s := fun s => by
      have : ¬ 0 < c.get s := fun hs => hno ⟨s, hs⟩
      rw [get_zero]
      omega
    exact hzero (ext_get .l (h0 _) (h0 _))
  obtain ⟨d, rfl⟩ := exists_pred hs
  by_cases hd : Mem ctx d
  · rcases Nat.eq_zero_or_pos (d.get s.flip) with h0 | hpos
    · have := ((mem_step hd).mp hc).2
      exact .inr (.inl ⟨d, s, rfl, hd, by omega⟩)
    obtain ⟨f, rfl⟩ := exists_pred hpos
    rw [step_comm] at hc ⊢
    by_cases he : Mem ctx (f.step s)
    · refine .inr (.inr ⟨f, ?_⟩)
      cases s with
      | l => exact ⟨rfl, mem_of_mem_steps he hd, he, hd⟩
      | r => exact ⟨step_comm .., mem_of_mem_steps hd he, hd, he⟩
    obtain ⟨j, hj, hctx⟩ := ctxAt_of_not_mem h hc he
    rw [Side.flip_flip, get_step_self] at hj
    rw [get_step_flip, Side.flip_flip] at hctx
    refine .inr (.inl ⟨f.step s.flip, s, step_comm .., hd, ?_⟩)
    rw [get_step_flip', get_step_self, show f.get s = j by omega, hctx]
  obtain ⟨j, hj, hctx⟩ := ctxAt_of_not_mem h hc hd
  obtain ⟨f, rfl⟩ := exists_pred (c := d) (s := s.flip) (by omega)
  rw [step_comm] at hc ⊢
  rw [get_step_self] at hj
  rw [get_step_flip'] at hctx
  have he : Mem ctx (f.step s) := by
    by_contra he
    obtain ⟨i, hi, hctx'⟩ := ctxAt_of_not_mem h hc he
    rw [Side.flip_flip, get_step_self] at hi
    rw [get_step_flip, Side.flip_flip] at hctx'
    have h1 := (hc s).1
    have h2 := (hc s.flip).1
    rw [get_step_flip', get_step_self] at h1
    rw [get_step_self, get_step_flip] at h2
    have := h.acyclic s i j (by omega) (by omega) (by omega)
    omega
  refine .inr (.inl ⟨f.step s, s.flip, rfl, he, ?_⟩)
  rw [get_step_flip, Side.flip_flip, get_step_self, show f.get s.flip = j by omega, hctx]

theorem Stair.induction (h : Stair ctx) {P : Coord → Prop} (origin : P zero)
    (edge : ∀ d s, Mem ctx d → Mem ctx (d.step s) → ctxAt ctx s (d.get s) = d.get s.flip → P d →
      P (d.step s)) (corner : ∀ d, Mem ctx d → Mem ctx (d.step .l) → Mem ctx (d.step .r) →
      Mem ctx ((d.step .l).step .r) → P d → P (d.step .l) → P (d.step .r) → P ((d.step .l).step .r))
    (hc : Mem ctx c) : P c := by
  induction hn : c.l + c.r using Nat.strongRecOn generalizing c with
  | ind n ih =>
    rcases h.reached hc with rfl | ⟨d, s, rfl, hd, hctx⟩ | ⟨d, rfl, hd, hl, hr⟩
    · exact origin
    · refine edge d s hd hc hctx (ih (d.l + d.r) ?_ hd rfl)
      cases s <;> simp only [step] at hn <;> omega
    simp only [step] at hn
    exact corner d hd hl hr hc (ih _ (by omega) hd rfl)
      (ih (d.l + 1 + d.r) (by omega) hl rfl) (ih (d.l + (d.r + 1)) (by omega) hr rfl)

end Lib
