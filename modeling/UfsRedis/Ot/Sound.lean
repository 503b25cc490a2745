import UfsRedis.Ot.Grid
import UfsRedis.Ot.Tp1

/-!
# Contents and operations on the grid

* `Sound`: the contents of a grid are well formed, the edges of an operation are the operation
  itself at its context and its transformations elsewhere, and each square is a transformation. If
  no element is named `*`, each edge does to the partition what its operation says;
* `Sound.insert`: one more state;
* `Sound.agree`: two grids of one history have the same partitions, even where the texts of contents
  and operations differ.
-/

namespace UfsRedis

open Lib Partition Coord

/-! ## Kinds of operations -/

/-- A transformation of `a`: it is of the same kind, and a split does not change. -/
def SameKind (a b : UfsOp) : Prop := b.optype = a.optype ∧ (a.optype = .split → b = a)

theorem SameKind.refl (a : UfsOp) : SameKind a a := ⟨rfl, fun _ => rfl⟩

theorem SameKind.trans {a b c} (h : SameKind a b) (h' : SameKind b c) : SameKind a c :=
  ⟨h'.1.trans h.1, fun ha => (h'.2 (h.1.trans ha)).trans (h.2 ha)⟩

section

variable {E : List Sds} {p : Setoid Sds} {op1 op2 op1' op2' : UfsOp}

variable (h : Transform E p op1 op2 op1' op2')
include h

theorem Transform.symm : Transform E p op2 op1 op2' op1' := by
  cases h with
  | unions => exact .unions
  | splits => exact .splits
  | unionSplit h => exact .splitUnion h
  | splitUnion h => exact .unionSplit h

theorem Transform.sameKind : SameKind op1 op1' := by
  cases h with
  | unions => exact .refl _
  | splits => exact .refl _
  | unionSplit => exact ⟨rfl, fun h => absurd h (by simp [unionOp])⟩
  | splitUnion => exact .refl _

theorem Transform.unions_sup (h1 : op1.optype = .union)
    (h2 : op2.optype = .union) : op2'.act (op1.act p) = op1.act p ⊔ op2.act p := by
  cases h with
  | @unions a b c d =>
    obtain ⟨X, hX⟩ := exists_act_union a b
    obtain ⟨Y, hY⟩ := exists_act_union c d
    rw [hX, hY, hY, glue_glue]
  | splits => simp [splitOp] at h1
  | unionSplit => simp [splitOp] at h2
  | splitUnion => simp [splitOp] at h1

end

/-! ## Sound grids -/

/-- The edge of side `s` at the state `c` with content `S₀` has the operation `op` and leads to the
content `S`. -/
structure EdgeOk (E : List Sds) (H : History) (c : Coord) (s : Side) (S₀ : Sds) (op : UfsOp)
    (S : Sds) : Prop where
  ok : OpOk E op
  kind : ∀ r, (H s)[c.get s]? = some r → SameKind r.op op
  origin : ∀ r, (H s)[c.get s]? = some r → r.ctx = c.get s.flip → op = r.op
  act : star ∉ E → denote S = op.act (denote S₀)

/-- The contents and the operations of a grid over the elements `E`, with contents of `ℓ`
characters. -/
structure Sound (E : List Sds) (ℓ : Nat) (H : History) (M : Coord → Prop) (A : Cells) : Prop where
  shows : ∀ c, M c → Shows E (A.content c) (denote (A.content c))
  length : ∀ c, M c → (A.content c).length = ℓ
  edge : ∀ c s, M c → M (c.step s) →
    EdgeOk E H c s (A.content c) (A.op c s) (A.content (c.step s))
  square : ∀ c s, M c → M (c.step s) → M (c.step s.flip) → M ((c.step s).step s.flip) →
    Transform E (denote (A.content c)) (A.op c s) (A.op c s.flip) (A.op (c.step s.flip) s)
      (A.op (c.step s) s.flip)

variable {E : List Sds} {ℓ i : Nat} {V : Space} {H : History} {M : Coord → Prop} {A A' : Cells}
  {c e : Coord} {s : Side} {S : Sds} {op : Side → UfsOp} {r : OpRec}

theorem Sound.insert (h : Sound E ℓ H M A) (he : Fresh M e) (hS : Shows E S (denote S))
    (hlen : S.length = ℓ)
    (hedge : ∀ c s, M c → c.step s = e → EdgeOk E H c s (A.content c) (op s) S)
    (hsquare : ∀ c s, M c → M (c.step s) → M (c.step s.flip) → (c.step s).step s.flip = e →
      Transform E (denote (A.content c)) (A.op c s) (A.op c s.flip) (op s) (op s.flip)) :
    Sound E ℓ H (fun c => M c ∨ c = e) (A.insert e i S op) := by
  have hext : A.Extends M (A.insert e i S op) := he.extends
  refine ⟨?_, ?_, ?_, ?_⟩
  · rintro c (hc | rfl)
    · rw [hext.content c hc]; exact h.shows c hc
    · rw [Cells.content_insert_self]; exact hS
  · rintro c (hc | rfl)
    · rw [hext.content c hc]; exact h.length c hc
    · rw [Cells.content_insert_self]; exact hlen
  · intro c s hc hs
    obtain ⟨hc, hs | hs⟩ := he.edge_cases hc hs
    · rw [hext.content c hc, hext.content _ hs, hext.op c s hc hs]
      exact h.edge c s hc hs
    rw [hext.content c hc, Cells.op_insert hs, hs, Cells.content_insert_self]
    exact hedge c s hc hs
  intro c s hc hs hf hsf
  have hfs : (c.step s.flip).step s = (c.step s).step s.flip := step_comm ..
  -- only the corner of the square can be the new state
  obtain ⟨hs', hcorner⟩ := he.edge_cases hs hsf
  obtain ⟨hf', -⟩ := he.edge_cases hf (by rw [hfs]; exact hsf)
  have hc' : M c := (he.edge_cases hc hs).1
  rw [hext.content c hc', hext.op c s hc' hs', hext.op c _ hc' hf']
  rcases hcorner with hcorner | hcorner
  · rw [hext.op _ _ hs' hcorner, hext.op _ _ hf' (by rwa [hfs])]
    exact h.square c s hc' hs' hf' hcorner
  rw [Cells.op_insert hcorner, Cells.op_insert (by rw [hfs, hcorner])]
  exact hsquare c s hc' hs' hf' hcorner

/-- An operation that is in no state of the grid yet does not matter. -/
theorem Sound.push (h : Sound E ℓ H (Mem H.ctxs) A) (s : Side) (r : OpRec) :
    Sound E ℓ (H.push s r) (Mem H.ctxs) A := by
  refine ⟨h.shows, h.length, fun c t hc ht => ?_, h.square⟩
  have hget : (H.push s r t)[c.get t]? = (H t)[c.get t]? := by
    rcases s.eq_or_eq_flip t with rfl | rfl
    · rw [History.push_self, List.getElem?_append_left (mem_step_lt ht)]
    · rw [History.push_flip]
  have hedge := h.edge c t hc ht
  exact ⟨hedge.ok, by rw [hget]; exact hedge.kind, by rw [hget]; exact hedge.origin, hedge.act⟩

theorem Layout.push (h : Layout V H (Mem H.ctxs) A) (s : Side) (r : OpRec) :
    Layout V (H.push s r) (Mem H.ctxs) A := by
  refine ⟨h.zero, h.ix_zero, h.content, fun c t hc ht => ?_, h.none, h.inj, h.surj, h.lt⟩
  rw [History.oid_push_lt (mem_step_lt ht), h.edge c t hc ht]

theorem exists_rec (hs : Mem H.ctxs (c.step s)) : ∃ r, (H s)[c.get s]? = some r :=
  ⟨_, List.getElem?_eq_getElem (mem_step_lt hs)⟩

theorem ctxAt_eq (h : (H s)[i]? = some r) : ctxAt H.ctxs s i = r.ctx := by
  simp [ctxAt, History.ctxs, h]

theorem Sound.unions_sup (h : Sound E ℓ H (Mem H.ctxs) A) (hstar : star ∉ E) {rl rr}
    (hc : Mem H.ctxs c) (hl : Mem H.ctxs (c.step .l)) (hr : Mem H.ctxs (c.step .r))
    (hlr : Mem H.ctxs ((c.step .l).step .r)) (hgl : (H .l)[c.get .l]? = some rl)
    (hgr : (H .r)[c.get .r]? = some rr) (hul : rl.op.optype = .union)
    (hur : rr.op.optype = .union) : denote (A.content ((c.step .l).step .r)) =
      denote (A.content (c.step .l)) ⊔ denote (A.content (c.step .r)) := by
  have hl' := h.edge c .l hc hl
  have hr' := h.edge c .r hc hr
  rw [(h.edge _ .r hl hlr).act hstar, hl'.act hstar, hr'.act hstar]
  exact (h.square c .l hc hl hr hlr).unions_sup ((hl'.kind _ hgl).1.trans hul)
    ((hr'.kind _ hgr).1.trans hur)

/-- **Two grids of one history agree.** By induction over the staircase: at its context an operation
is the same in both; a split is the same everywhere; and two unions meet in the join. -/
theorem Sound.agree (hst : Stair H.ctxs) (hstar : star ∉ E) (h : Sound E ℓ H (Mem H.ctxs) A)
    (h' : Sound E ℓ H (Mem H.ctxs) A')
    (hzero : denote (A.content zero) = denote (A'.content zero)) (hc : Mem H.ctxs c) :
    denote (A.content c) = denote (A'.content c) := by
  refine hst.induction (P := fun c => denote (A.content c) = denote (A'.content c)) hzero ?_ ?_ hc
  · intro d s hd hs hctx heq
    obtain ⟨r, hr⟩ := exists_rec hs
    rw [ctxAt_eq hr] at hctx
    have h1 := h.edge d s hd hs
    have h2 := h'.edge d s hd hs
    rw [h1.act hstar, h2.act hstar, h1.origin _ hr hctx, h2.origin _ hr hctx, heq]
  intro d hd hl hr hlr heq heql heqr
  have hrl : Mem H.ctxs ((d.step .r).step .l) := by rwa [step_comm]
  obtain ⟨rl, hgl⟩ := exists_rec hl
  obtain ⟨rr, hgr⟩ := exists_rec hr
  cases hkl : rl.op.optype with
  | split =>
    have e := h.edge _ .l hr hrl
    have e' := h'.edge _ .l hr hrl
    rw [step_comm, e.act hstar, e'.act hstar, (e.kind _ hgl).2 hkl, (e'.kind _ hgl).2 hkl, heqr]
  | union =>
    cases hkr : rr.op.optype with
    | split =>
      have e := h.edge _ .r hl hlr
      have e' := h'.edge _ .r hl hlr
      rw [e.act hstar, e'.act hstar, (e.kind _ hgr).2 hkr, (e'.kind _ hgr).2 hkr, heql]
    | union =>
      rw [h.unions_sup hstar hd hl hr hlr hgl hgr hkl hkr,
        h'.unions_sup hstar hd hl hr hlr hgl hgr hkl hkr, heql, heqr]

end UfsRedis
