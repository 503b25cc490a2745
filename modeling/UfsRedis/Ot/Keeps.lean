import UfsRedis.Ot.Grid

/-!
# What every state space keeps

Facts that hold of a state space whatever operations arrive, in whatever order and with whatever
contexts.

* `SpaceInv C O V`: all contents of `V` have `C`, all operations on its edges have `O`, and its
  edges lead to later vertices;
* `SpaceInv.receive`, `SpaceInv.addLast`: it is kept, if `updateVerticeUfsFromState` keeps `C` and
  `otUfs` keeps `O` (`Closed`);
* `SpaceInv.locateLast`, `SpaceInv.calculateOids`: so the walks to the last vertice end.
-/

namespace UfsRedis

open Lib List

/-- The contents have `C`, the operations have `O`, and edges lead to later vertices. -/
structure SpaceInv (C : Sds → Prop) (O : UfsOp → Prop) (V : Space) : Prop where
  content : ∀ {i S}, V.contentAt i = some S → C S
  op : ∀ {i s e}, V.edgeAt i s = some e → O e.op
  forward : ∀ {i s e}, V.edgeAt i s = some e → i < e.adjv ∧ e.adjv < V.length

/-- New contents and operations have `C` and `O`. -/
structure Closed (C : Sds → Prop) (O : UfsOp → Prop) (len : Nat) : Prop where
  fromState : ∀ {S op S'}, C S → O op → updateVerticeUfsFromState S op len = .ok S' → C S'
  ot : ∀ {S op1 op2 e1 e2}, C S → O op1 → O op2 → otUfs S op1 op2 .union = .ok (e1, e2) →
    O e1 ∧ O e2

namespace Space

variable {V : Space} {i : Nat}

/-- What a vertice that is read contains. -/
theorem of_vertice (h : V.vertice i = .ok v) :
    i < V.length ∧ V.contentAt i = some v.content ∧ ∀ t, V.edgeAt i t = v.edge t := by
  rw [vertice] at h
  split at h
  · next w hw =>
    cases h
    exact ⟨(List.getElem?_eq_some_iff.mp hw).1, by rw [contentAt, hw]; rfl,
      fun t => by rw [edgeAt, hw]; rfl⟩
  · cases h

theorem exists_vertice (h : i < V.length) : ∃ v, V.vertice i = .ok v := by
  rw [vertice, getElem?_eq_getElem h]
  exact ⟨_, rfl⟩

theorem edgeAt_append_create : edgeAt (V ++ [Vertice.create content]) i t = V.edgeAt i t := by
  rcases lt_trichotomy i V.length with h | rfl | h
  · exact edgeAt_append_lt h
  · rw [edgeAt_append_length, Vertice.edge_create, edgeAt, getElem?_eq_none le_rfl]
    rfl
  · rw [edgeAt, edgeAt, getElem?_eq_none (by simp; omega), getElem?_eq_none (by omega)]

end Space

variable {C : Sds → Prop} {O : UfsOp → Prop} {V V' : Space} {u p q len fuel : Nat} {s : Side}
  {op cop : UfsOp} {oid oids oids' ctx content : Sds}

theorem edgeAt_create : Space.edgeAt [Vertice.create content] i s = none :=
  Space.edgeAt_append_create (V := [])

/-- A new state space. -/
theorem SpaceInv.start (h : C content) : SpaceInv C O [Vertice.create content] where
  content {i S} hi := by
    obtain _ | i := i
    · cases hi; exact h
    cases hi
  op he := by cases he.symm.trans edgeAt_create
  forward he := by cases he.symm.trans edgeAt_create

theorem SpaceInv.setEdge (h : SpaceInv C O V) (hop : O op) (hp : p < q) (hq : q < V.length) :
    SpaceInv C O (V.setEdge p s ⟨op, oid, q⟩) := by
  have hedge : ∀ {i t e}, (V.setEdge p s ⟨op, oid, q⟩).edgeAt i t = some e →
      (i = p ∧ e = ⟨op, oid, q⟩) ∨ V.edgeAt i t = some e := by
    intro i t e he
    rw [Space.edgeAt_setEdge (by omega)] at he
    split at he
    · next hi => exact .inl ⟨hi.1, (Option.some.inj he).symm⟩
    · exact .inr he
  refine ⟨fun hi => ?_, fun he => ?_, fun he => ?_⟩
  · rw [Space.contentAt_setEdge] at hi
    exact h.content hi
  · rcases hedge he with ⟨-, rfl⟩ | he
    · exact hop
    · exact h.op he
  rw [Space.length_setEdge]
  rcases hedge he with ⟨rfl, rfl⟩ | he
  · exact ⟨hp, hq⟩
  · exact h.forward he

theorem SpaceInv.append (h : SpaceInv C O V) (hc : C content) :
    SpaceInv C O (V ++ [Vertice.create content]) := by
  refine ⟨fun {i S} hi => ?_, fun he => ?_, fun he => ?_⟩
  · rcases lt_trichotomy i V.length with hlt | rfl | hlt
    · rw [Space.contentAt_append_lt hlt] at hi
      exact h.content hi
    · rw [Space.contentAt_append_length] at hi
      cases hi
      exact hc
    rw [Space.contentAt, getElem?_eq_none (by simp; omega)] at hi
    cases hi
  · rw [Space.edgeAt_append_create] at he
    exact h.op he
  rw [Space.edgeAt_append_create] at he
  obtain ⟨h1, h2⟩ := h.forward he
  exact ⟨h1, by rw [length_append]; omega⟩

theorem SpaceInv.addOp (h : SpaceInv C O V) (hop : O op) (hc : C content) (hu : u < V.length) :
    SpaceInv C O (addOp V u s op oid content) :=
  (h.append hc).setEdge hop hu (by simp)

theorem length_addOp : (addOp V u s op oid content).length = V.length + 1 := by
  simp [UfsRedis.addOp]

/-- Each round of the transformation adds a vertice whose content and operation are kept. -/
theorem SpaceInv.otLoop (hcl : Closed C O len) (h : SpaceInv C O V) (hp : p < V.length)
    (hr : otLoop len s fuel V u p oids = .ok (V', q, oids')) :
    SpaceInv C O V' ∧ V.length ≤ V'.length := by
  induction fuel generalizing V u p oids with
  | zero => cases hr
  | succ fuel ih =>
    rw [UfsRedis.otLoop, bind_eq_ok] at hr
    obtain ⟨vu, hvu, hr⟩ := hr
    obtain ⟨-, hcont, hedge⟩ := Space.of_vertice hvu
    split at hr
    · cases hr
      exact ⟨h, le_rfl⟩
    next e he =>
    simp only [bind_eq_ok] at hr
    obtain ⟨d, hd, ⟨op1, op2⟩, hot, vul, hvul, content, hfrom, hrest⟩ := hr
    obtain ⟨hlt, hcont', -⟩ := Space.of_vertice hvul
    have hd' : V.edgeAt u s = some d := by
      rw [hedge]
      rcases hds : vu.edge s with _ | d'
      · rw [hds] at hd; cases hd
      rw [hds, deref_some, Except.ok.injEq] at hd; rw [hd]
    have he' : V.edgeAt u s.flip = some e := by rw [hedge, he]
    obtain ⟨ho1, ho2⟩ := hcl.ot (h.content hcont) (h.op he') (h.op hd') hot
    have hnew : SpaceInv C O (UfsRedis.addOp V e.adjv s op2 d.oid content) :=
      h.addOp ho2 (hcl.fromState (h.content hcont') ho2 hfrom) hlt
    have hstep : SpaceInv C O ((UfsRedis.addOp V e.adjv s op2 d.oid content).setEdge p s.flip
        ⟨op1, e.oid, V.length⟩) :=
      hnew.setEdge ho1 hp (by rw [length_addOp]; omega)
    obtain ⟨hinv, hlen⟩ := ih hstep (by rw [Space.length_setEdge, length_addOp]; omega) hrest
    rw [Space.length_setEdge, length_addOp] at hlen
    exact ⟨hinv, by omega⟩

/-- An operation that arrives from the other side. -/
theorem SpaceInv.receive (hcl : Closed C O len) (h : SpaceInv C O V) (hop : O op) (hcop : O cop)
    (hr : receive V len s op cop oid ctx = .ok (V', q, oids)) :
    SpaceInv C O V' ∧ V.length ≤ V'.length := by
  simp only [UfsRedis.receive, bind_eq_ok] at hr
  obtain ⟨o, -, u, -, vu, hvu, content, hfrom, hloop⟩ := hr
  obtain ⟨hlt, hcont, -⟩ := Space.of_vertice hvu
  have hnew : SpaceInv C O (UfsRedis.addOp V u s op oid content) :=
    h.addOp hop (hcl.fromState (h.content hcont) hcop hfrom) hlt
  obtain ⟨hinv, hlen⟩ := hnew.otLoop hcl (by rw [length_addOp]; omega) hloop
  rw [length_addOp] at hlen
  exact ⟨hinv, by omega⟩

variable {f : Vertice → Except Fault Sds}

/-- An operation that is put at the last vertice. -/
theorem SpaceInv.addLast (h : SpaceInv C O V) (hop : O op)
    (hf : ∀ {v S}, C v.content → f v = .ok S → C S)
    (hr : addLast V s op oid f = .ok V') : SpaceInv C O V' ∧ V'.length = V.length + 1 := by
  simp only [UfsRedis.addLast, bind_eq_ok] at hr
  obtain ⟨o, -, u, -, vu, hvu, content, hc, heq⟩ := hr
  obtain ⟨hlt, hcont, -⟩ := Space.of_vertice hvu
  cases heq
  exact ⟨h.addOp hop (hf (h.content hcont) hc) hlt, length_addOp⟩

/-! ## Walks -/

section

variable (h : SpaceInv C O V) (hq : q < V.length) (hfuel : V.length ≤ fuel + q)
include h hq hfuel

/-- The walk ends, since edges lead to later vertices. -/
theorem SpaceInv.locateLVertice : ∃ u, locateLVertice V fuel q = .ok u ∧ u < V.length := by
  induction fuel generalizing q with
  | zero => omega
  | succ fuel ih =>
    obtain ⟨v, hv⟩ := Space.exists_vertice hq
    obtain ⟨-, -, hedge⟩ := Space.of_vertice hv
    rw [UfsRedis.locateLVertice, hv, ok_bind]
    have hnext : ∀ {t e}, v.edge t = some e →
        ∃ u, UfsRedis.locateLVertice V fuel e.adjv = .ok u ∧ u < V.length := by
      intro t e he
      obtain ⟨h1, h2⟩ := h.forward ((hedge t).trans he)
      exact ih h2 (by omega)
    cases hl : v.ledge with
    | some e => exact hnext (t := .l) hl
    | none =>
      cases hr : v.redge with
      | some e => exact hnext (t := .r) hr
      | none => exact ⟨q, rfl, hq⟩

theorem SpaceInv.calculateOids (t : Sds) : ∃ oids, calculateOids V fuel q t = .ok oids := by
  induction fuel generalizing q t with
  | zero => omega
  | succ fuel ih =>
    obtain ⟨v, hv⟩ := Space.exists_vertice hq
    obtain ⟨-, -, hedge⟩ := Space.of_vertice hv
    rw [UfsRedis.calculateOids, hv, ok_bind]
    have hnext : ∀ {s e}, v.edge s = some e →
        ∃ oids, UfsRedis.calculateOids V fuel e.adjv (catOid t e.oid) = .ok oids := by
      intro s e he
      obtain ⟨h1, h2⟩ := h.forward ((hedge s).trans he)
      exact ih h2 (by omega) _
    cases hl : v.ledge with
    | some e => exact hnext (s := .l) hl
    | none =>
      cases hr : v.redge with
      | some e => exact hnext (s := .r) hr
      | none => exact ⟨t, rfl⟩

end

/-- An operation can be put at the last vertice. -/
theorem SpaceInv.exists_addLast (h : SpaceInv C O V) (hV : V ≠ [])
    (hf : ∀ v, ∃ S, f v = .ok S) : ∃ V', UfsRedis.addLast V s op oid f = .ok V' := by
  have hpos := length_pos_of_ne_nil hV
  have hfuel : V.length ≤ V.length + 1 + 0 := by omega
  obtain ⟨u, hloc, hu⟩ := h.locateLVertice hpos hfuel
  obtain ⟨v, hv⟩ := Space.exists_vertice hu
  obtain ⟨S, hS⟩ := hf v
  simp [UfsRedis.addLast, locateLast, hV, hloc, hv, hS]

end UfsRedis
