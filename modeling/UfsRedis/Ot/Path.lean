import UfsRedis.Ot.Receive

/-!
# Paths in a state space

On a grid all paths to a vertice have the same effect, and its edges to it are the operations of its
context. The walk along the first edges ends at the one vertice without an edge.
-/

namespace UfsRedis

open Lib Coord List

/-- A path from the head to vertice `i`, and its edges. -/
inductive Space.Path (V : Space) : Nat → List Dedge → Prop
  | head : V.Path 0 []
  | step {i : Nat} {es : List Dedge} {s : Side} {e : Dedge} (h : V.Path i es)
    (he : V.edgeAt i s = some e) : V.Path e.adjv (es ++ [e])

/-- Vertice `i` has been reached by the operations `os`, in some order on each path. -/
def Space.Reached (V : Space) (i : Nat) (os : List Sds) : Prop :=
  (∃ es, V.Path i es) ∧ ∀ es, V.Path i es → (es.map Dedge.oid).Perm os

/-- The operations on a path, applied to the partition `p`. -/
def actAll (p : Setoid Sds) (es : List Dedge) : Setoid Sds := es.foldl (fun q e => e.op.act q) p

/-- The operations on every path, applied to `p`, give the partition of the content of its last
vertice. -/
def Space.PathsAgree (V : Space) (p : Setoid Sds) : Prop :=
  ∀ i es S, V.Path i es → V.contentAt i = some S → actAll p es = denote S

/-- The walks of `locateLVertice` and `calculateOids` from the head end at the one vertice without
edges, and `calculateOids` lists the `oid` of every edge once. -/
def Space.FinalWalk (V : Space) : Prop :=
  ∃ u es, locateLVertice V (V.length + 1) 0 = .ok u ∧ V.Path u es ∧
    calculateOids V (V.length + 1) 0 initOids = .ok (ctxText (es.map Dedge.oid)) ∧
    (∀ i, (i < V.length ∧ ∀ s, V.edgeAt i s = none) ↔ i = u) ∧
    (es.map Dedge.oid).Nodup ∧
    ∀ o, o ∈ es.map Dedge.oid ↔ ∃ i s e, V.edgeAt i s = some e ∧ e.oid = o

theorem calculateOids_of_locateLVertice
    (hq : V.Path q es) (h : locateLVertice V fuel q = .ok u) : ∃ es', V.Path u es' ∧
      calculateOids V fuel q (ctxText (es.map Dedge.oid)) = .ok (ctxText (es'.map Dedge.oid)) := by
  induction fuel generalizing q es with
  | zero => cases h
  | succ fuel ih =>
    obtain ⟨v, hv, h⟩ := bind_eq_ok.mp h
    have hedge : ∀ s, V.edgeAt q s = v.edge s := by
      intro s
      unfold Space.vertice at hv
      split at hv
      · next w hw =>
        cases hv
        rw [Space.edgeAt, hw]
        rfl
      · cases hv
    -- an edge on the way
    have hnext : ∀ s e, v.edge s = some e → locateLVertice V fuel e.adjv = .ok u →
        ∃ es', V.Path u es' ∧ calculateOids V fuel e.adjv
          (catOid (ctxText (es.map Dedge.oid)) e.oid) = .ok (ctxText (es'.map Dedge.oid)) := by
      intro s e he hu
      have := ih (hq.step ((hedge s).trans he)) hu
      rwa [map_append, map_singleton, ← catOid_ctxText] at this
    rw [calculateOids, hv, ok_bind]
    cases hl : v.ledge with
    | some e =>
      rw [hl] at h
      exact hnext .l e hl h
    | none =>
      rw [hl] at h
      cases hr : v.redge with
      | some e =>
        rw [hr] at h
        exact hnext .r e hr h
      | none =>
        rw [hr] at h
        cases h
        exact ⟨es, hq, rfl⟩

variable {E : List Sds} {ℓ i : Nat} {V : Space} {H : History} {A : Cells} {c : Coord} {s : Side}
  {e : Dedge} {es : List Dedge} (g : Grid E ℓ V H A)
include g

theorem Grid.edge_iff (hc : Mem H.ctxs c) : V.edgeAt (A.ix c) s = some e ↔
    Mem H.ctxs (c.step s) ∧ e = ⟨A.op c s, H.oid s (c.get s), A.ix (c.step s)⟩ := by
  by_cases hs : Mem H.ctxs (c.step s)
  · rw [g.layout.edge c s hc hs, Option.some.injEq]
    exact ⟨fun h => ⟨hs, h.symm⟩, fun h => h.2.symm⟩
  rw [g.layout.none c s hc hs]
  exact ⟨fun h => absurd h (by simp), fun h => absurd h.1 hs⟩

theorem Grid.path (h : V.Path i es) : ∃ c, Lib.Mem H.ctxs c ∧ A.ix c = i ∧
    (es.map Dedge.oid).Perm (H.oids c) ∧
    (star ∉ E → actAll (denote (A.content zero)) es = denote (A.content c)) := by
  induction h with
  | head => exact ⟨zero, mem_zero _, g.layout.ix_zero, .nil, fun _ => rfl⟩
  | @step i es s e _ he ih =>
    obtain ⟨c, hc, rfl, hoids, hact⟩ := ih
    obtain ⟨hs, rfl⟩ := (g.edge_iff hc).mp he
    refine ⟨c.step s, hs, rfl, ?_, fun hstar => ?_⟩
    · rw [map_append]
      exact (hoids.append_right _).trans (History.oids_step (mem_step_lt hs)).symm
    rw [(g.sound.edge c s hc hs).act hstar, ← hact hstar, actAll, actAll, foldl_append]
    rfl

/-- Every vertice of the grid is reached. -/
theorem Grid.exists_path (hc : Mem H.ctxs c) : ∃ es, V.Path (A.ix c) es := by
  have hstep : ∀ d s, Lib.Mem H.ctxs d → Mem H.ctxs (d.step s) → (∃ es, V.Path (A.ix d) es) →
      ∃ es, V.Path (A.ix (d.step s)) es := by
    rintro d s hd hs ⟨es, hes⟩
    exact ⟨_, hes.step (g.layout.edge d s hd hs)⟩
  refine g.stair.induction (P := fun c => ∃ es, V.Path (A.ix c) es) ?_
    (fun d s hd hs _ hes => hstep d s hd hs hes) (fun d _ hl _ hlr _ hes _ => ?_) hc
  · exact ⟨[], g.layout.ix_zero ▸ .head⟩
  · exact hstep _ .r hl hlr hes

/-- A vertice is reached by the operations of its context. -/
theorem Grid.reached (hc : Mem H.ctxs c) : V.Reached (A.ix c) (H.oids c) := by
  refine ⟨g.exists_path hc, fun es hes => ?_⟩
  obtain ⟨d, hd, hix, hoids, -⟩ := g.path hes
  rwa [g.layout.inj d c hd hc hix] at hoids

theorem Grid.pathsAgree (hstar : star ∉ E) : V.PathsAgree (denote (A.content zero)) := by
  intro i es S hes hS
  obtain ⟨c, hc, rfl, -, hact⟩ := g.path hes
  rw [g.layout.content c hc, Option.some.injEq] at hS
  rw [hact hstar, hS]

theorem Grid.no_edge_iff : (i < V.length ∧ ∀ s, V.edgeAt i s = none) ↔ i = A.ix (last H.ctxs) := by
  constructor
  · rintro ⟨hi, hnone⟩
    obtain ⟨c, hc, rfl⟩ := g.layout.surj i hi
    rw [eq_last_of_no_step g.stair hc fun s hs => ?_]
    have := g.layout.edge c s hc hs
    rw [hnone s] at this
    cases this
  rintro rfl
  have hlast := g.mem_last
  refine ⟨g.layout.ix_lt hlast, fun s => g.layout.none _ s hlast fun hs => ?_⟩
  have := mem_step_lt hs
  rw [get_last, History.length_ctxs] at this
  omega

theorem Grid.edge_oid_iff :
    (∃ i s e, V.edgeAt i s = some e ∧ e.oid = o) ↔ o ∈ H.oids (last H.ctxs) := by
  obtain ⟨⟨es, hes⟩, hperm⟩ := g.reached g.mem_last
  constructor
  · rintro ⟨i, s, e, he, rfl⟩
    have hi : i < V.length := by
      by_contra hge
      rw [Space.edgeAt, getElem?_eq_none (by omega)] at he
      cases he
    obtain ⟨c, hc, rfl⟩ := g.layout.surj i hi
    obtain ⟨hs, rfl⟩ := (g.edge_iff hc).mp he
    refine (History.mem_oids fun t => by simp).mpr ⟨s, c.get s, ?_, rfl⟩
    rw [get_last, History.length_ctxs]
    exact mem_step_lt hs
  intro ho
  have hmem := (hperm es hes).mem_iff.mpr ho
  clear hperm ho
  generalize A.ix (last H.ctxs) = u at hes
  induction hes with
  | head => cases hmem
  | @step i es s e _ he ih =>
    rw [map_append, mem_append, map_singleton, mem_singleton] at hmem
    rcases hmem with hmem | rfl
    · exact ih hmem
    · exact ⟨i, s, e, he, rfl⟩

/-- **The final walk**, if the `oid`s can be told apart. -/
theorem Grid.finalWalk (hok : H.OidsOk) : V.FinalWalk := by
  have hwalk : locateLVertice V (V.length + 1) 0 = .ok (A.ix (last H.ctxs)) := by
    have hzero : locateLVertice V (V.length + 1) (A.ix zero) = .ok (A.ix (last H.ctxs)) :=
      g.layout.locateLVertice g.stair g.layout.zero (by rw [g.layout.ix_zero]; omega)
    rwa [g.layout.ix_zero] at hzero
  obtain ⟨es, hes, hoids⟩ := calculateOids_of_locateLVertice .head hwalk
  have hperm := (g.reached g.mem_last).2 es hes
  refine ⟨_, es, hwalk, hes, hoids, fun i => g.no_edge_iff, ?_, fun o => ?_⟩
  · exact hperm.nodup_iff.mpr (hok.nodup_oids fun t => by simp)
  · rw [g.edge_oid_iff, hperm.mem_iff]

omit g in
theorem Space.Reached.perm (h : V.Reached i os) (hos : os.Perm os') : V.Reached i os' :=
  ⟨h.1, fun es hes => (h.2 es hes).trans hos⟩

end UfsRedis
