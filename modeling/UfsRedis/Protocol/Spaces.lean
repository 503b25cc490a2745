import UfsRedis.Protocol.Run
import UfsRedis.Ot.Path

/-!
# The state spaces in a run

In every state of a run the paths of a state space to one vertice have the same effect, the context
of a message on its way is found, the two state spaces of a link agree, and the operations arrive in
one order. The runs after the theorems fail where a name or a port breaks a condition.
-/

namespace UfsRedis

open Lib Coord Option List

/-- The context of a message is found in the space, by exactly the operations that it lists, at a
vertice without an edge of side `s`. -/
def ContextFound (V : Space) (s : Side) (argv : List Sds) : Prop :=
  ∃ a1 a2 oid ctx os u, parseArgs argv = .ok (a1, a2, oid, ctx) ∧
    sdssplit ctx ',' = initOids :: os ∧ locateCtx V ctx = .ok (some u) ∧ V.Reached u os ∧
    V.edgeAt u s = none

/-- The last vertices of two spaces have been reached by the same operations and denote the same
partition. -/
def SameLast (V V' : Space) : Prop :=
  ∃ u u' os S S', locateLast V = .ok (some u) ∧ locateLast V' = .ok (some u') ∧
    V.Reached u os ∧ V'.Reached u' os ∧ V.contentAt u = some S ∧ V'.contentAt u' = some S' ∧
    denote S = denote S'

variable {ports : List Nat} {inits : List (Sds × Sds)} {E argv : List Sds} {ℓ i : Nat} {key Z : Sds}
  {Ω : List OpId} {p : Peer} {G : Ghost} {sys : System} {events : List Event} {x : Sds × Sds}
  {rest : List (List Sds)} {s : Side} {L : LinkState} {V : Side → Space}
  {chan : Side → List (List Sds)}

theorem Link.contextFound
    (h : Link E ℓ key L V chan) (hchan : chan s = argv :: rest) : ContextFound (V s) s argv := by
  obtain ⟨r, os, hr, rfl, hmem, hos, -⟩ := h.next hchan
  have hgrid := h.grid s
  have hok : (L.hist s).OidsOk := h.oidsOk.cut _ _
  have hcomma : ∀ o ∈ os, ',' ∉ o := by
    intro o ho
    obtain ⟨t, k, hk, rfl⟩ := (History.mem_oids (mem_le hmem)).mp (hos.subset ho)
    have hlt := Nat.lt_of_lt_of_le hk (mem_le hmem t)
    rw [History.oid_eq (getElem?_eq_getElem hlt)]
    exact hok.comma t _ (getElem_mem hlt)
  refine ⟨_, _, _, _, os, _, parseArgs_encode (h.opOk s r (mem_of_getElem? hr)),
    sdssplit_ctxText hcomma, hgrid.layout.locateCtx hgrid.stair hok hmem hos,
    (hgrid.reached hmem).perm hos.symm, hgrid.layout.none _ s hmem fun hstep => ?_⟩
  have := mem_step_lt hstep
  rw [get_mk'_self, LinkState.hist, History.length_cut (h.le s)] at this
  omega

theorem RunInv.message (h : RunInv ports inits events sys) (hp : p ∈ sys.peers) (argv : List Sds)
    (hargv : argv ∈ p.up ++ p.down) : ∃ (x : Sds × Sds) (ℓ i : Nat) (Ω : List OpId) (Z : Sds)
      (G : Ghost), argv.getLast? = some x.1 ∧
      PeerInv ports (elementsOf x.2) ℓ x.1 (denote x.2) i Ω Z sys.server p G := by
  obtain ⟨x, hx, hlast⟩ := h.inv.static.msgs p hp argv hargv
  obtain ⟨ℓ, Ω, Z, hkey⟩ := h.inv.keys x hx
  obtain ⟨i, hi⟩ := getElem?_of_mem hp
  obtain ⟨G, hG⟩ := hkey.peers i p hi
  exact ⟨x, ℓ, i, Ω, Z, G, hlast, hG⟩

theorem RunInv.server_space (h : RunInv ports inits events sys) (hc : ConfigOk ports inits)
    {sv} (hsv : sv ∈ sys.server.sspacelist.getD [])
    (hkey : KeyInv ports x.1 x.2 sys ℓ Ω Z) (hx : sv.key = x.1) :
    ∃ i p G, PeerInv ports (elementsOf x.2) ℓ x.1 (denote x.2) i Ω Z sys.server p G ∧
      sv.vertices = G.V .l := by
  rcases hspaces : sys.server.sspacelist with _ | spaces
  · rw [hspaces] at hsv
    exact absurd hsv not_mem_nil
  rw [hspaces, getD_some] at hsv
  obtain ⟨hfound, j, q, hq, hport⟩ := h.inv.static.space hc hspaces hsv
  obtain ⟨G, hpeer⟩ := hkey.peers j q hq
  have hserver := hpeer.server
  rw [hport, ← hx, hfound, some.injEq] at hserver
  exact ⟨j, q, G, hpeer, by rw [hserver]⟩

/-- **Path independence.** In every state of a run, in the space of every client and in every space
of the server, the operations on every path from the head give the partition of its last vertice. -/
theorem paths_agree (h : RunOk ports inits events) (hstar : ∀ x ∈ inits, star ∉ elementsOf x.2) :
    ∃ sys, System.exec ports inits events = .ok sys ∧ ∀ x ∈ inits,
      (∀ p ∈ sys.peers, ∃ cv, p.node.cver x.1 = some cv ∧ cv.vertices.PathsAgree (denote x.2)) ∧
      ∀ sv ∈ sys.server.sspacelist.getD [], sv.key = x.1 → sv.vertices.PathsAgree (denote x.2) := by
  obtain ⟨sys, hsys, hrun⟩ := RunInv.exec h
  refine ⟨sys, hsys, fun x hx => ?_⟩
  obtain ⟨ℓ, Ω, Z, hkey⟩ := hrun.inv.keys x hx
  refine ⟨fun p hp => ?_, fun sv hsv hk => ?_⟩
  · obtain ⟨i, hi⟩ := getElem?_of_mem hp
    obtain ⟨G, hpeer⟩ := hkey.peers i p hi
    refine ⟨_, hpeer.client.cver, ?_⟩
    rw [← hpeer.start .r]
    exact (hpeer.link.grid .r).pathsAgree (hstar x hx)
  obtain ⟨i, p, G, hpeer, hV⟩ := hrun.server_space h.config hsv hkey hk
  rw [← hpeer.start .l, hV]
  exact (hpeer.link.grid .l).pathsAgree (hstar x hx)

theorem paths_agree_union_split : ∃ sys,
    System.exec [6380, 6381] [(['k'], ['a', ',', 'b'])] demoRun = .ok sys ∧
      ∀ x ∈ [(['k'], ['a', ',', 'b'])], (∀ p ∈ sys.peers, ∃ cv, p.node.cver x.1 = some cv ∧
          cv.vertices.PathsAgree (denote x.2)) ∧
        ∀ sv ∈ sys.server.sspacelist.getD [], sv.key = x.1 → sv.vertices.PathsAgree (denote x.2) :=
  paths_agree demoRun_ok (by decide)

/-- A run with an element `*`, which the transformation takes for its marker. -/
def starRun : List Event :=
  [.user 1 [unionCmd, ['a'], ['b'], ['k']], .toServer 1, .user 0 [splitCmd, ['a'], ['k']],
    .toServer 0]

/-- After it, in the space of client 0 at the server, the path with `split a` and the transformed
`union * b` leaves three classes, but its last vertice has `*` and `b` in one class. -/
theorem paths_disagree : ∃ sys,
    System.exec [6380, 6381] [(['k'], ['a', ',', '*', '/', 'b'])] starRun = .ok sys ∧
      ∃ sv ∈ sys.server.sspacelist.getD [], sv.key = ['k'] ∧
        ¬ sv.vertices.PathsAgree (denote ['a', ',', '*', '/', 'b']) := by
  refine exists_ok_imp (P := fun sys => ∃ sv ∈ sys.server.sspacelist.getD [], sv.key = ['k'] ∧
    sv.vertices.edgeAt 0 .l = some ⟨splitOp ['a'], ['1', '_', '1'], 2⟩ ∧
    sv.vertices.edgeAt 2 .r = some ⟨unionOp ['*'] ['b'], ['2', '_', '1'], 3⟩ ∧
    sv.vertices.contentAt 3 = some ['*', ',', 'b', '/', 'a']) (by decide +kernel) ?_
  rintro sys - ⟨sv, hsv, hk, he, he', hS⟩
  refine ⟨sv, hsv, hk, fun hagree => ?_⟩
  have hpath := hagree 3 _ _ ((Space.Path.head.step he).step he') hS
  have hrel : denote ['*', ',', 'b', '/', 'a'] ['*'] ['b'] :=
    (WellFormed.denote_iff (by decide)).mpr (by decide)
  rw [← hpath] at hrel
  -- the union with the marker does nothing, and the split only removes pairs
  have hcut : Partition.cut (denote ['a', ',', '*', '/', 'b']) (operand ['a']) ['*'] ['b'] := hrel
  have hno := (WellFormed.denote_iff (by decide)).mp (Partition.cut_iff.mp hcut).1
  exact absurd hno (by decide)

/-- **Every operation finds its context.** In every state of a run, the context of the next message
to each client and of the next message from it is found at the receiver, and a further step of the
run overwrites no edge of any space. -/
theorem context_found (h : RunOk ports inits events) :
    ∃ sys, System.exec ports inits events = .ok sys ∧
      (∀ p ∈ sys.peers, ∀ argv rest, p.down = argv :: rest →
        ∃ key cv, keyArg argv = .ok key ∧ p.node.cver key = some cv ∧
          ContextFound cv.vertices .r argv) ∧
      (∀ p ∈ sys.peers, ∀ argv rest, p.up = argv :: rest →
        ∃ key sv, keyArg argv = .ok key ∧ sys.server.sver p.node.port key = some sv ∧
          ContextFound sv.vertices .l argv) ∧
      ∀ e, RunOk ports inits (events ++ [e]) → ∃ sys', sys.step e = .ok sys' ∧ Kept sys sys' := by
  obtain ⟨sys, hsys, hrun⟩ := RunInv.exec h
  refine ⟨sys, hsys, fun p hp argv rest hdown => ?_, fun p hp argv rest hup => ?_, fun e he => ?_⟩
  · obtain ⟨x, ℓ, i, Ω, Z, G, hlast, hG⟩ := hrun.message hp argv (by simp [hdown])
    have hchan : chanOf x.1 p .r = argv :: rest.filter (hasKey x.1) := by
      rw [chanOf, hdown, filter_hasKey_cons hlast]
    exact ⟨x.1, _, keyArg_eq hlast, hG.client.cver, hG.link.contextFound hchan⟩
  · obtain ⟨x, ℓ, i, Ω, Z, G, hlast, hG⟩ := hrun.message hp argv (by simp [hup])
    have hchan : chanOf x.1 p .l = argv :: rest.filter (hasKey x.1) := by
      rw [chanOf, hup, filter_hasKey_cons hlast]
    exact ⟨x.1, _, keyArg_eq hlast, hG.server, hG.link.contextFound hchan⟩
  obtain ⟨sys', hstep, -, hkept⟩ := hrun.snoc he
  exact ⟨sys', hstep, hkept⟩

theorem context_found_union_split : ∃ sys,
    System.exec [6380, 6381] [(['k'], ['a', ',', 'b'])] demoRun = .ok sys ∧
      (∀ p ∈ sys.peers, ∀ argv rest, p.down = argv :: rest →
        ∃ key cv, keyArg argv = .ok key ∧ p.node.cver key = some cv ∧
          ContextFound cv.vertices .r argv) ∧
      (∀ p ∈ sys.peers, ∀ argv rest, p.up = argv :: rest →
        ∃ key sv, keyArg argv = .ok key ∧ sys.server.sver p.node.port key = some sv ∧
          ContextFound sv.vertices .l argv) ∧
      ∀ e, RunOk [6380, 6381] [(['k'], ['a', ',', 'b'])] (demoRun ++ [e]) →
        ∃ sys', sys.step e = .ok sys' ∧ Kept sys sys' :=
  context_found demoRun_ok

/-- A run with ports below 6379, whose clients both call their first operation `_1`. -/
def overwritingRun : List Event :=
  [.user 1 [splitCmd, ['b'], ['k']], .user 0 [splitCmd, ['b'], ['k']],
    .user 0 [splitCmd, ['b'], ['k']], .toServer 0, .toServer 0, .toClient 1]

/-- After it the next message of client 1 has the context `init,_1`, which is found at the vertice
of the client's own `_1`. That vertice has a `redge`, and the next step overwrites it. -/
theorem edge_overwritten : ∃ sys sys',
    System.exec [6001, 6002] [(['k'], ['a', ',', 'b'])] overwritingRun = .ok sys ∧
      (∃ p ∈ sys.peers[1]?, ∃ cv ∈ p.node.cver ['k'],
        p.down = [[splitCmd, ['b'], ['_', '2'], ['i', 'n', 'i', 't', ',', '_', '1'], ['k']]] ∧
        locateCtx cv.vertices ['i', 'n', 'i', 't', ',', '_', '1'] = .ok (some 1) ∧
        cv.vertices.edgeAt 1 .r = some ⟨splitOp ['b'], ['_', '1'], 3⟩) ∧
      sys.step (.toClient 1) = .ok sys' ∧ ¬ Kept sys sys' := by
  have hrun : ∃ sys, System.exec [6001, 6002] [(['k'], ['a', ',', 'b'])] overwritingRun = .ok sys ∧
        ∃ p ∈ sys.peers[1]?, ∃ cv ∈ p.node.cver ['k'],
          p.down = [[splitCmd, ['b'], ['_', '2'], ['i', 'n', 'i', 't', ',', '_', '1'], ['k']]] ∧
          locateCtx cv.vertices ['i', 'n', 'i', 't', ',', '_', '1'] = .ok (some 1) ∧
          cv.vertices.edgeAt 1 .r = some ⟨splitOp ['b'], ['_', '1'], 3⟩ := by
    decide +kernel
  have hnext : ∃ sys', System.exec [6001, 6002] [(['k'], ['a', ',', 'b'])]
      (overwritingRun ++ [.toClient 1]) = .ok sys' ∧ ∃ p ∈ sys'.peers[1]?, ∃ cv ∈ p.node.cver ['k'],
          cv.vertices.edgeAt 1 .r = some ⟨splitOp ['b'], ['_', '2'], 4⟩ := by
    decide +kernel
  obtain ⟨sys, hsys, p, hp, cv, hcv, hdown, hloc, hedge⟩ := hrun
  obtain ⟨sys', hsys', p', hp', cv', hcv', hedge'⟩ := hnext
  rw [System.exec_snoc hsys] at hsys'
  refine ⟨sys, sys', hsys, ⟨p, hp, cv, hcv, hdown, hloc, hedge⟩, hsys', fun hkept => ?_⟩
  have := hkept.clients 1 p p' hp hp' _ cv cv' hcv hcv' 1 .r _ hedge
  rw [hedge'] at this
  exact absurd this (by decide)

/-- **The spaces of the server agree.** In every state of a run, the last vertices of any two spaces
of a key have been reached by the same operations and denote the same partition. -/
theorem server_spaces_agree (h : RunOk ports inits events) :
    ∃ sys, System.exec ports inits events = .ok sys ∧ ∀ x ∈ inits,
      ∀ sv ∈ sys.server.sspacelist.getD [], ∀ sv' ∈ sys.server.sspacelist.getD [],
        sv.key = x.1 → sv'.key = x.1 → SameLast sv.vertices sv'.vertices := by
  obtain ⟨sys, hsys, hrun⟩ := RunInv.exec h
  refine ⟨sys, hsys, fun x hx sv hsv sv' hsv' hk hk' => ?_⟩
  obtain ⟨ℓ, Ω, Z, hkey⟩ := hrun.inv.keys x hx
  -- the last vertice of each space has the operations `Ω` and the content `Z`
  have hlast : ∀ sv ∈ sys.server.sspacelist.getD [], sv.key = x.1 → ∃ u,
      locateLast sv.vertices = .ok (some u) ∧ sv.vertices.Reached u (Ω.map (idText ports)) ∧
        sv.vertices.contentAt u = some Z := by
    intro sv hsv hk
    obtain ⟨i, p, G, hpeer, hV⟩ := hrun.server_space h.config hsv hkey hk
    have hgrid := hpeer.link.grid .l
    rw [hV]
    refine ⟨_, hgrid.layout.locateLast hgrid.stair, (hgrid.reached hgrid.mem_last).perm hpeer.perm,
      ?_⟩
    rw [hgrid.layout.content _ hgrid.mem_last, ← hpeer.last]
    rfl
  obtain ⟨u, hu, hreach, hS⟩ := hlast sv hsv hk
  obtain ⟨u', hu', hreach', hS'⟩ := hlast sv' hsv' hk'
  exact ⟨u, u', _, Z, Z, hu, hu', hreach, hreach', hS, hS', rfl⟩

theorem server_spaces_agree_union_split : ∃ sys,
    System.exec [6380, 6381] [(['k'], ['a', ',', 'b'])] demoRun = .ok sys ∧
      ∀ x ∈ [(['k'], ['a', ',', 'b'])], ∀ sv ∈ sys.server.sspacelist.getD [],
        ∀ sv' ∈ sys.server.sspacelist.getD [], sv.key = x.1 → sv'.key = x.1 →
          SameLast sv.vertices sv'.vertices :=
  server_spaces_agree demoRun_ok

/-- Two clients that listen on the same port of different hosts. The server finds the space of the
first for both, and never changes that of the second. -/
theorem server_spaces_disagree : ∃ sys, System.exec [6380, 6380] [(['k'], ['a', ',', 'b'])]
      [.user 1 [splitCmd, ['b'], ['k']], .toServer 1] = .ok sys ∧
      ∃ sv ∈ sys.server.sspacelist.getD [], ∃ sv' ∈ sys.server.sspacelist.getD [],
        sv.key = ['k'] ∧ sv'.key = ['k'] ∧ ¬ SameLast sv.vertices sv'.vertices := by
  refine exists_ok_imp (P := fun sys => ∃ sv ∈ sys.server.sspacelist.getD [],
    ∃ sv' ∈ sys.server.sspacelist.getD [], sv.key = ['k'] ∧ sv'.key = ['k'] ∧
      locateLast sv.vertices = .ok (some 1) ∧ locateLast sv'.vertices = .ok (some 0) ∧
      sv.vertices.contentAt 1 = some ['a', '/', 'b'] ∧
      sv'.vertices.contentAt 0 = some ['a', ',', 'b']) (by decide +kernel) ?_
  rintro sys - ⟨sv, hsv, sv', hsv', hk, hk', hu, hu', hS, hS'⟩
  refine ⟨sv, hsv, sv', hsv', hk, hk', ?_⟩
  rintro ⟨v, v', os, T, T', hv, hv', -, -, hT, hT', heq⟩
  rw [hu, Except.ok.injEq, some.injEq] at hv
  rw [hu', Except.ok.injEq, some.injEq] at hv'
  subst hv hv'
  rw [hS, some.injEq] at hT
  rw [hS', some.injEq] at hT'
  subst hT hT'
  have hrel : denote ['a', ',', 'b'] ['a'] ['b'] :=
    (WellFormed.denote_iff (by decide)).mpr (by decide)
  rw [← heq] at hrel
  exact absurd ((WellFormed.denote_iff (by decide)).mp hrel) (by decide)

theorem Link.finalWalk (h : Link E ℓ key L V chan) (s : Side) : (V s).FinalWalk :=
  (h.grid s).finalWalk (h.oidsOk.cut _ _)

/-- **The final walk.** In every state of a run, in the space of every client and in every space of
the server, `locateLVertice` and `calculateOids` end at the one vertice without edges, and
`calculateOids` lists each operation of the space once. -/
theorem final_walks (h : RunOk ports inits events) :
    ∃ sys, System.exec ports inits events = .ok sys ∧ ∀ x ∈ inits,
      (∀ p ∈ sys.peers, ∃ cv, p.node.cver x.1 = some cv ∧ cv.vertices.FinalWalk) ∧
      ∀ sv ∈ sys.server.sspacelist.getD [], sv.key = x.1 → sv.vertices.FinalWalk := by
  obtain ⟨sys, hsys, hrun⟩ := RunInv.exec h
  refine ⟨sys, hsys, fun x hx => ?_⟩
  obtain ⟨ℓ, Ω, Z, hkey⟩ := hrun.inv.keys x hx
  refine ⟨fun p hp => ?_, fun sv hsv hk => ?_⟩
  · obtain ⟨i, hi⟩ := getElem?_of_mem hp
    obtain ⟨G, hpeer⟩ := hkey.peers i p hi
    exact ⟨_, hpeer.client.cver, hpeer.link.finalWalk .r⟩
  obtain ⟨i, p, G, hpeer, hV⟩ := hrun.server_space h.config hsv hkey hk
  rw [hV]
  exact hpeer.link.finalWalk .l

theorem final_walks_union_split : ∃ sys,
    System.exec [6380, 6381] [(['k'], ['a', ',', 'b'])] demoRun = .ok sys ∧
      ∀ x ∈ [(['k'], ['a', ',', 'b'])],
        (∀ p ∈ sys.peers, ∃ cv, p.node.cver x.1 = some cv ∧ cv.vertices.FinalWalk) ∧
        ∀ sv ∈ sys.server.sspacelist.getD [], sv.key = x.1 → sv.vertices.FinalWalk :=
  final_walks demoRun_ok

/-- With ports below 6379 the first operations of both clients are called `_1`, and `calculateOids`
lists that twice at client 1. -/
theorem oid_listed_twice : ∃ sys, System.exec [6001, 6002] [(['k'], ['a', ',', 'b'])]
      [.user 1 [splitCmd, ['b'], ['k']], .user 0 [splitCmd, ['b'], ['k']], .toServer 0,
        .toClient 1] = .ok sys ∧
      ∃ p ∈ sys.peers, ∃ cv, p.node.cver ['k'] = some cv ∧ ¬ cv.vertices.FinalWalk := by
  refine exists_ok_imp (P := fun sys => ∃ p ∈ sys.peers, ∃ cv ∈ p.node.cver ['k'],
    calculateOids cv.vertices (cv.vertices.length + 1) 0 initOids =
      .ok (ctxText [['_', '1'], ['_', '1']]) ∧ ∀ v ∈ cv.vertices, ∀ s ∈ [Side.l, Side.r],
        ∀ e ∈ v.edge s, e.oid = ['_', '1']) (by decide +kernel) ?_
  rintro sys - ⟨p, hp, cv, hcv, hoids, hedges⟩
  refine ⟨p, hp, cv, hcv, ?_⟩
  rintro ⟨u, es, -, -, hes, -, hnodup, hmem⟩
  rw [hoids, Except.ok.injEq] at hes
  have hall : ∀ o ∈ es.map Dedge.oid, o = ['_', '1'] := by
    intro o ho
    obtain ⟨i, s, e, he, rfl⟩ := (hmem o).mp ho
    obtain ⟨v, hv, he⟩ := Option.bind_eq_some_iff.mp he
    exact hedges v (mem_of_getElem? hv) s (by cases s <;> simp) e he
  -- without duplicates at most one is listed
  have hone : es.map Dedge.oid = [] ∨ es.map Dedge.oid = [['_', '1']] := by
    rcases hl : es.map Dedge.oid with _ | ⟨o, os⟩
    · exact .inl rfl
    rw [hl] at hall hnodup
    obtain _ | ⟨o', os⟩ := os
    · exact .inr (by rw [hall o (by simp)])
    have heq : o = o' := (hall o (by simp)).trans (hall o' (by simp)).symm
    simp [heq] at hnodup
  rcases hone with hone | hone <;> rw [hone] at hes <;> exact absurd hes (by decide)

/-- **No operation is lost, doubled or reordered.** In every state of a run the server has processed
the operations of a key in one order `Ω`. The messages of a client are the rest of its operations,
those to it the rest of the others in `Ω`, and its last vertice has its own and the others before. -/
theorem delivered_in_order (h : RunOk ports inits events) :
    ∃ sys, System.exec ports inits events = .ok sys ∧ ∀ x ∈ inits, ∃ Ω, OrderOk ports Ω ∧
      ∀ (i : Nat) p, sys.peers[i]? = some p → ∃ cv u H own a b, p.node.cver x.1 = some cv ∧
        locateLast cv.vertices = .ok (some u) ∧
        cv.vertices.Reached u (H.oids (mk' .r b (H .l).length)) ∧ LinkIds ports i Ω own H a ∧
        Chan x.1 H .l a (chanOf x.1 p .l) ∧ Chan x.1 H .r b (chanOf x.1 p .r) := by
  obtain ⟨sys, hsys, hrun⟩ := RunInv.exec h
  refine ⟨sys, hsys, fun x hx => ?_⟩
  obtain ⟨ℓ, Ω, Z, hkey⟩ := hrun.inv.keys x hx
  refine ⟨Ω, hkey.order, fun i p hp => ?_⟩
  obtain ⟨G, hpeer⟩ := hkey.peers i p hp
  have hgrid := hpeer.link.grid .r
  refine ⟨_, _, G.L.H, _, _, _, hpeer.client.cver, hgrid.layout.locateLast hgrid.stair, ?_,
    hpeer.ids, hpeer.link.chan .l, hpeer.link.chan .r⟩
  exact G.L.oids_last .r (hpeer.link.le .r) ▸ hgrid.reached hgrid.mem_last

theorem delivered_in_order_union_split : ∃ sys,
    System.exec [6380, 6381] [(['k'], ['a', ',', 'b'])] demoRun = .ok sys ∧
      ∀ x ∈ [(['k'], ['a', ',', 'b'])], ∃ Ω, OrderOk [6380, 6381] Ω ∧
        ∀ (i : Nat) p, sys.peers[i]? = some p → ∃ cv u H own a b, p.node.cver x.1 = some cv ∧
          locateLast cv.vertices = .ok (some u) ∧
          cv.vertices.Reached u (H.oids (mk' .r b (H .l).length)) ∧
          LinkIds [6380, 6381] i Ω own H a ∧
          Chan x.1 H .l a (chanOf x.1 p .l) ∧ Chan x.1 H .r b (chanOf x.1 p .r) :=
  delivered_in_order demoRun_ok

end UfsRedis
