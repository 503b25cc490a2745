import UfsRedis.Ot.History

/-!
# The grid of a state space

The vertices of a state space are the states of a staircase (`Lib.Stair`): the vertice at `c` has
`c.l` operations of the client and `c.r` operations of the others.
-/

namespace UfsRedis

open Lib Coord Option Function List

/-! ## Vertices -/

namespace Space

/-- The content of the vertice at `i`. -/
def contentAt (V : Space) (i : Nat) : Option Sds := V[i]?.map Vertice.content

/-- An edge of the vertice at `i`. -/
def edgeAt (V : Space) (i : Nat) (s : Side) : Option Dedge := V[i]?.bind (Vertice.edge · s)

variable {V : Space} {i q : Nat} {s t : Side} {e : Dedge}

theorem vertice_eq (h : V.contentAt i = some S) :
    ∃ v, V.vertice i = .ok v ∧ v.content = S ∧ ∀ t, v.edge t = V.edgeAt i t := by
  rw [contentAt, map_eq_some_iff] at h
  obtain ⟨v, hv, hS⟩ := h
  exact ⟨v, by rw [vertice, hv], hS, fun t => by rw [edgeAt, hv]; rfl⟩

theorem lt_length (h : V.contentAt i = some S) : i < V.length := by
  by_contra hge
  rw [contentAt, getElem?_eq_none (by omega)] at h
  simp at h

theorem contentAt_setEdge : (V.setEdge q s e).contentAt i = V.contentAt i := by
  rw [contentAt, contentAt, setEdge, getElem?_modify]
  by_cases h : q = i
  · simp only [h, if_true]
    cases V[i]? <;> simp
  · simp [h]

theorem edgeAt_setEdge (hq : q < V.length) :
    (V.setEdge q s e).edgeAt i t = if i = q ∧ t = s then some e else V.edgeAt i t := by
  rw [edgeAt, edgeAt, setEdge, getElem?_modify]
  by_cases h : i = q
  · subst h
    rw [getElem?_eq_getElem hq]
    by_cases hts : t = s
    · simp [hts]
    · simp [hts, Vertice.edge_setEdge_ne]
  · simp [h, Ne.symm h]

variable {v : Vertice}

theorem contentAt_append_lt (h : i < V.length) : contentAt (V ++ [v]) i = V.contentAt i := by
  rw [contentAt, contentAt, getElem?_append_left h]

theorem contentAt_append_length : contentAt (V ++ [v]) V.length = some v.content := by
  simp [contentAt]

theorem edgeAt_append_lt (h : i < V.length) : edgeAt (V ++ [v]) i t = V.edgeAt i t := by
  rw [edgeAt, edgeAt, getElem?_append_left h]

theorem edgeAt_append_length : edgeAt (V ++ [v]) V.length t = v.edge t := by
  simp [edgeAt]

@[simp] theorem length_setEdge : (V.setEdge q s e).length = V.length := by simp [setEdge]

end Space

/-! ## Grids -/

/-- What stands at each state of a grid: the position of its vertice, the content, and the
operations of the edges from it. -/
structure Cells where
  ix : Coord → Nat
  content : Coord → Sds
  op : Coord → Side → UfsOp

/-- One more state `e`, with the operations of the edges to it. -/
def Cells.insert (A : Cells) (e : Coord) (i : Nat) (S : Sds) (op : Side → UfsOp) : Cells where
  ix := Function.update A.ix e i
  content := Function.update A.content e S
  op c s := if c.step s = e then op s else A.op c s

variable {A : Cells} {e c : Coord} {i : Nat} {S : Sds} {op : Side → UfsOp} {s : Side} {H : History}
  {M : Coord → Prop}

@[simp] theorem Cells.ix_insert_self : (A.insert e i S op).ix e = i := update_self _ _ _

@[simp] theorem Cells.content_insert_self : (A.insert e i S op).content e = S := update_self _ _ _

theorem Cells.op_insert (h : c.step s = e) : (A.insert e i S op).op c s = op s := if_pos h

/-- `A'` has the states `M` as `A` has them. -/
structure Cells.Extends (M : Coord → Prop) (A A' : Cells) : Prop where
  ix : ∀ c, M c → A'.ix c = A.ix c
  content : ∀ c, M c → A'.content c = A.content c
  op : ∀ c s, M c → M (c.step s) → A'.op c s = A.op c s

theorem Cells.Extends.refl (M : Coord → Prop) (A : Cells) : A.Extends M A :=
  ⟨fun _ _ => rfl, fun _ _ => rfl, fun _ _ _ _ => rfl⟩

theorem Cells.Extends.trans (hM : ∀ c, M c → M' c)
    (h : A.Extends M A') (h' : A'.Extends M' A'') : A.Extends M A'' where
  ix c hc := by rw [h'.ix c (hM c hc), h.ix c hc]
  content c hc := by rw [h'.content c (hM c hc), h.content c hc]
  op c s hc hs := by rw [h'.op c s (hM c hc) (hM _ hs), h.op c s hc hs]

/-- No edge of `V` is changed in `V'`. -/
def Space.EdgesKept (V V' : Space) : Prop :=
  ∀ i s e, V.edgeAt i s = some e → V'.edgeAt i s = some e

/-- The list of vertices `V` holds the grid `A` over the states `M`, and nothing else. -/
structure Layout (V : Space) (H : History) (M : Coord → Prop) (A : Cells) : Prop where
  zero : M zero
  ix_zero : A.ix Coord.zero = 0
  content : ∀ c, M c → V.contentAt (A.ix c) = some (A.content c)
  edge : ∀ c s, M c → M (c.step s) →
    V.edgeAt (A.ix c) s = some ⟨A.op c s, H.oid s (c.get s), A.ix (c.step s)⟩
  none : ∀ c s, M c → ¬ M (c.step s) → V.edgeAt (A.ix c) s = none
  inj : ∀ c d, M c → M d → A.ix c = A.ix d → c = d
  surj : ∀ i < V.length, ∃ c, M c ∧ A.ix c = i
  lt : ∀ c s, M c → M (c.step s) → A.ix c < A.ix (c.step s)

/-- A state that can be added: it is new, and nothing comes after it. -/
structure Fresh (M : Coord → Prop) (e : Coord) : Prop where
  new : ¬ M e
  succ : ∀ s, ¬ M (e.step s)

section

variable {V V' : Space}

theorem Fresh.ne (h : Fresh M e) (hc : M c) : c ≠ e := fun hce => h.new (hce ▸ hc)

theorem Fresh.edge_cases (h : Fresh M e) (hc : M c ∨ c = e) (hs : M (c.step s) ∨ c.step s = e) :
    M c ∧ (M (c.step s) ∨ c.step s = e) := by
  rcases hc with hc | rfl
  · exact ⟨hc, hs⟩
  rcases hs with hs | hs
  · exact absurd hs (h.succ s)
  · exact absurd hs (step_ne c s)

theorem Fresh.extends (h : Fresh M e) : A.Extends M (A.insert e i S op) where
  ix _ hc := update_of_ne (h.ne hc) _ _
  content _ hc := update_of_ne (h.ne hc) _ _
  op _ _ _ hs := if_neg (h.ne hs)

theorem Layout.insert (h : Layout V H M A) (he : Fresh M e) (hlen : V'.length = V.length + 1)
    (hcontent : ∀ i < V.length, V'.contentAt i = V.contentAt i)
    (hnew : V'.contentAt V.length = some S) (hnone : ∀ s, V'.edgeAt V.length s = Option.none)
    (hedge : ∀ c s, M c → V'.edgeAt (A.ix c) s =
      if c.step s = e then some ⟨op s, H.oid s (c.get s), V.length⟩ else V.edgeAt (A.ix c) s) :
    Layout V' H (fun c => M c ∨ c = e) (A.insert e V.length S op) := by
  have hext : A.Extends M (A.insert e V.length S op) := he.extends
  have hlt : ∀ c, M c → A.ix c < V.length := fun c hc => Space.lt_length (h.content c hc)
  refine ⟨.inl h.zero, by rw [hext.ix _ h.zero, h.ix_zero], ?_, ?_, ?_, ?_, ?_, ?_⟩
  · rintro c (hc | rfl)
    · rw [hext.ix c hc, hext.content c hc, hcontent _ (hlt c hc), h.content c hc]
    · rw [Cells.ix_insert_self, hnew, Cells.content_insert_self]
  · intro c s hc hs
    obtain ⟨hc, hs | hs⟩ := he.edge_cases hc hs
    · rw [hext.ix c hc, hext.ix _ hs, hext.op c s hc hs, hedge c s hc, if_neg (he.ne hs),
        h.edge c s hc hs]
    · rw [hext.ix c hc, hs, Cells.ix_insert_self, hedge c s hc, if_pos hs, Cells.op_insert hs]
  · rintro c s (hc | rfl) hs
    · rw [not_or] at hs
      rw [hext.ix c hc, hedge c s hc, if_neg hs.2, h.none c s hc hs.1]
    · rw [Cells.ix_insert_self, hnone]
  · rintro c d (hc | rfl) (hd | rfl) hcd
    · rw [hext.ix c hc, hext.ix d hd] at hcd
      exact h.inj c d hc hd hcd
    · have := hlt c hc
      rw [hext.ix c hc, Cells.ix_insert_self] at hcd
      omega
    · have := hlt d hd
      rw [hext.ix d hd, Cells.ix_insert_self] at hcd
      omega
    · rfl
  · intro i hi
    rcases Nat.lt_or_eq_of_le (show i ≤ V.length by omega) with hi | rfl
    · obtain ⟨c, hc, rfl⟩ := h.surj i hi
      exact ⟨c, .inl hc, hext.ix c hc⟩
    · exact ⟨e, .inr rfl, Cells.ix_insert_self⟩
  intro c s hc hs
  obtain ⟨hc, hs | hs⟩ := he.edge_cases hc hs
  · rw [hext.ix c hc, hext.ix _ hs]
    exact h.lt c s hc hs
  rw [hext.ix c hc, hs, Cells.ix_insert_self]
  exact hlt c hc

theorem Layout.edgesKept (h : Layout V H M A)
    (h' : Layout V' H' M' A') (hM : ∀ c, M c → M' c) (hext : A.Extends M A')
    (hoid : ∀ (c : Coord) s, M (c.step s) → H'.oid s (c.get s) = H.oid s (c.get s)) :
    Space.EdgesKept V V' := by
  intro i s e he
  have hi : i < V.length := by
    by_contra hge
    rw [Space.edgeAt, getElem?_eq_none (by omega)] at he
    simp at he
  obtain ⟨c, hc, rfl⟩ := h.surj i hi
  by_cases hs : M (c.step s)
  · rw [h.edge c s hc hs] at he
    rw [← hext.ix c hc, h'.edge c s (hM c hc) (hM _ hs), hext.op c s hc hs, hoid c s hs,
      hext.ix _ hs, he]
  rw [h.none c s hc hs] at he
  simp at he

end

/-! ## Walks -/

variable {V : Space} {c d : Coord} {os cs : List Sds} {fuel : Nat}

theorem Layout.vertice (h : Layout V H M A) (hc : M c) :
    ∃ v, V.vertice (A.ix c) = .ok v ∧ v.content = A.content c ∧
      (∀ s, M (c.step s) → v.edge s = some ⟨A.op c s, H.oid s (c.get s), A.ix (c.step s)⟩) ∧
      ∀ s, ¬ M (c.step s) → v.edge s = Option.none := by
  obtain ⟨v, hv, hS, hedge⟩ := Space.vertice_eq (h.content c hc)
  refine ⟨v, hv, hS, fun s hs => ?_, fun s hs => ?_⟩
  · rw [hedge, h.edge c s hc hs]
  · rw [hedge, h.none c s hc hs]

theorem Layout.ix_lt (h : Layout V H M A) (hc : M c) : A.ix c < V.length :=
  Space.lt_length (h.content c hc)

theorem Layout.ne_nil (h : Layout V H M A) : V ≠ [] := by
  rintro rfl
  exact absurd (h.ix_lt h.zero) (Nat.not_lt_zero _)

theorem mem_le (hc : Mem H.ctxs c) (s : Side) : c.get s ≤ (H s).length := by
  simpa using (hc s).1

theorem mem_step_lt (hc : Mem H.ctxs (c.step s)) : c.get s < (H s).length := by
  have := mem_le hc s
  rw [get_step_self] at this
  omega

section

variable (h : Layout V H (Mem H.ctxs) A) (hst : Stair H.ctxs) (hc : Mem H.ctxs c)
  (hf : V.length < A.ix c + fuel)
include h hst hc hf

theorem Layout.locateLVertice : locateLVertice V fuel (A.ix c) = .ok (A.ix (last H.ctxs)) := by
  induction fuel generalizing c with
  | zero => exact absurd (h.ix_lt hc) (by omega)
  | succ fuel ih =>
    obtain ⟨v, hv, -, hsome, hnone⟩ := h.vertice hc
    rw [UfsRedis.locateLVertice, hv, ok_bind]
    by_cases hl : Mem H.ctxs (c.step .l)
    · have hlt := h.lt c .l hc hl
      rw [show v.ledge = _ from hsome .l hl]
      exact ih hl (by omega)
    rw [show v.ledge = _ from hnone .l hl]
    by_cases hr : Mem H.ctxs (c.step .r)
    · have hlt := h.lt c .r hc hr
      rw [show v.redge = _ from hsome .r hr]
      exact ih hr (by omega)
    rw [show v.redge = _ from hnone .r hr]
    have hlast : c = last H.ctxs := eq_last_of_no_step hst hc fun s => by cases s <;> assumption
    rw [← hlast]

theorem Layout.calculateOids (hos : os.Perm (H.oids c)) :
    ∃ os', UfsRedis.calculateOids V fuel (A.ix c) (ctxText os) = .ok (ctxText os') ∧
      os'.Perm (H.oids (last H.ctxs)) := by
  induction fuel generalizing c os with
  | zero => exact absurd (h.ix_lt hc) (by omega)
  | succ fuel ih =>
    obtain ⟨v, hv, -, hsome, hnone⟩ := h.vertice hc
    rw [UfsRedis.calculateOids, hv, ok_bind]
    have hnext : ∀ s, Mem H.ctxs (c.step s) →
        (os ++ [H.oid s (c.get s)]).Perm (H.oids (c.step s)) := fun s hs =>
      (hos.append_right _).trans (History.oids_step (mem_step_lt hs)).symm
    by_cases hl : Mem H.ctxs (c.step .l)
    · have hlt := h.lt c .l hc hl
      rw [show v.ledge = _ from hsome .l hl]
      simp only [catOid_ctxText]
      exact ih hl (by omega) (hnext .l hl)
    rw [show v.ledge = _ from hnone .l hl]
    by_cases hr : Mem H.ctxs (c.step .r)
    · have hlt := h.lt c .r hc hr
      rw [show v.redge = _ from hsome .r hr]
      simp only [catOid_ctxText]
      exact ih hr (by omega) (hnext .r hr)
    rw [show v.redge = _ from hnone .r hr]
    have hlast : c = last H.ctxs := eq_last_of_no_step hst hc fun s => by cases s <;> assumption
    exact ⟨os, rfl, hlast ▸ hos⟩

end

theorem length_ctxText_lt (hd : Mem H.ctxs d) (hle : ∀ t, c.get t ≤ d.get t) (hne : c ≠ d)
    (hos : os.Perm (H.oids c)) (hcs : cs.Perm (H.oids d)) :
    (ctxText os).length < (ctxText cs).length := by
  have hw : ∀ (l : List OpRec) (i j : Nat), i ≤ j → j ≤ l.length →
      (((l.take i).map OpRec.oid).map fun o => o.length + 1).sum + (j - i) ≤
        (((l.take j).map OpRec.oid).map fun o => o.length + 1).sum := by
    intro l i j hij hj
    induction j, hij using Nat.le_induction with
    | base => omega
    | succ j hij ih =>
      rw [take_add_one, getElem?_eq_getElem (by omega)]
      simp only [toList_some, map_append, map_cons, map_nil,
        sum_append_nat, sum_cons, sum_nil]
      omega
  have h1 := hw (H .l) _ _ (hle .l) (mem_le hd .l)
  have h2 := hw (H .r) _ _ (hle .r) (mem_le hd .r)
  have hlt : c.l < d.l ∨ c.r < d.r := by
    by_contra hno
    have hl := hle .l
    have hr := hle .r
    simp only [Coord.get] at hl hr
    exact hne (Coord.ext (by omega) (by omega))
  rw [length_ctxText, length_ctxText, (hos.map _).sum_nat, (hcs.map _).sum_nat, History.oids,
    History.oids]
  simp only [map_append, sum_append_nat, Coord.get] at h1 h2 ⊢
  omega

variable (h : Layout V H (Mem H.ctxs) A) (hst : Stair H.ctxs)
include h hst

/-- The walk of `locateRVertice` ends where it should, if all `oid`s can be told apart. -/
theorem Layout.locateRVertice (hok : H.OidsOk)
    (hc : Mem H.ctxs c) (hd : Mem H.ctxs d) (hle : ∀ t, c.get t ≤ d.get t)
    (hos : os.Perm (H.oids c)) (hcs : cs.Perm (H.oids d)) (hf : V.length < A.ix c + fuel) :
    UfsRedis.locateRVertice V (ctxText cs) fuel (A.ix c) (ctxText os) = .ok (some (A.ix d)) := by
  induction fuel generalizing c os with
  | zero => exact absurd (h.ix_lt hc) (by omega)
  | succ fuel ih =>
    rw [UfsRedis.locateRVertice]
    by_cases hcd : c = d
    · subst hcd
      have hperm : os.Perm cs := hos.trans hcs.symm
      have hlen : (ctxText os).length = (ctxText cs).length := by
        rw [length_ctxText, length_ctxText, (hperm.map _).sum_nat]
      rw [if_pos hlen]
      by_cases h4 : (ctxText os).length = 4
      · have hnil : os = [] := by
          rw [length_ctxText] at h4
          cases os with
          | nil => rfl
          | cons o os => simp at h4
        have hcnil : cs = [] := by
          rw [hnil] at hperm
          exact hperm.nil_eq.symm
        rw [if_pos h4, hcnil]
        rfl
      rw [if_neg h4, oidscmp_perm hperm fun o ho => hok.comma_oids o (hos.mem_iff.mp ho)]
      rfl
    have hlt := length_ctxText_lt hd hle hcd hos hcs
    rw [if_neg (by omega)]
    obtain ⟨v, hv, -, hsome, hnone⟩ := h.vertice hc
    rw [hv, ok_bind]
    -- the walk takes an edge exactly if it leads towards `d`
    have hstep : ∀ s, c.get s < d.get s → Mem H.ctxs (c.step s) →
        UfsRedis.locateRVertice V (ctxText cs) fuel (A.ix (c.step s))
          (catOid (ctxText os) (H.oid s (c.get s))) = .ok (some (A.ix d)) := by
      intro s hlt hs
      have hix := h.lt c s hc hs
      rw [catOid_ctxText]
      refine ih hs (fun t => ?_)
        ((hos.append_right _).trans (History.oids_step (mem_step_lt hs)).symm) (by omega)
      rcases s.eq_or_eq_flip t with rfl | rfl
      · rw [get_step_self]; omega
      · rw [get_step_flip]; exact hle _
    have hfind : ∀ s, Mem H.ctxs (c.step s) →
        (findOid (ctxText cs) (H.oid s (c.get s)) = true ↔ c.get s < d.get s) := fun s hs =>
      hok.findOid_iff (mem_le hd) hcs (mem_step_lt hs)
    by_cases hl : c.get .l < d.get .l ∧ Mem H.ctxs (c.step .l)
    · have hnext : nextEdge v (ctxText cs) =
          some ⟨A.op c .l, H.oid .l (c.get .l), A.ix (c.step .l)⟩ := by
        rw [nextEdge, show v.ledge = _ from hsome .l hl.2, filter_some,
          if_pos ((hfind .l hl.2).mpr hl.1)]
      rw [hnext]
      exact hstep .l hl.1 hl.2
    obtain ⟨hlt, hr⟩ := Mem.toward hst hc hd hle hcd hl
    have hnext : nextEdge v (ctxText cs) =
        some ⟨A.op c .r, H.oid .r (c.get .r), A.ix (c.step .r)⟩ := by
      have hledge : v.ledge.filter (fun e => findOid (ctxText cs) e.oid) = Option.none := by
        by_cases hl' : Mem H.ctxs (c.step .l)
        · rw [show v.ledge = _ from hsome .l hl', filter_some, if_neg]
          exact fun hf => hl ⟨(hfind .l hl').mp hf, hl'⟩
        rw [show v.ledge = _ from hnone .l hl']
        rfl
      rw [nextEdge, hledge, show v.redge = _ from hsome .r hr, filter_some,
        if_pos ((hfind .r hr).mpr hlt)]
    rw [hnext]
    exact hstep .r hlt hr

theorem Layout.locateLast : UfsRedis.locateLast V = .ok (some (A.ix (last H.ctxs))) := by
  rw [UfsRedis.locateLast, if_neg h.ne_nil, ← h.ix_zero,
    h.locateLVertice hst h.zero (by rw [h.ix_zero]; omega)]
  rfl

theorem Layout.locateCtx (hok : H.OidsOk) (hd : Mem H.ctxs d) (hcs : cs.Perm (H.oids d)) :
    UfsRedis.locateCtx V (ctxText cs) = .ok (some (A.ix d)) := by
  rw [UfsRedis.locateCtx, if_neg h.ne_nil, ← h.ix_zero, ← ctxText_nil]
  exact h.locateRVertice hst hok h.zero hd (fun t => by simp) (by simp [History.oids, Coord.zero])
    hcs (by rw [h.ix_zero]; omega)

end UfsRedis
