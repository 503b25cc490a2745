import UfsRedis.Protocol.Everywhere
import UfsRedis.Protocol.Run
import UfsRedis.Protocol.Steps
import UfsRedis.Ufs.Query

/-!
# Queries at the server

The server processes operations in its state spaces only (`System.step_server`), so that its replies
are those of a client iff the client has the partition of the `uinit` (`RunOk.reports`).
-/

namespace UfsRedis

open Lib

variable {ports : List Nat} {inits : List (Sds × Sds)} {sys sys' : System} {events : List Event}
  {e : Event} {n n' : Node} {c : Client} {o : Outcome}

theorem serverProc_frame (h : serverProc n c = .ok (n', o)) :
    ∃ spaces, n' = { n with sspacelist := spaces } := by
  obtain ⟨a1, a2, oid, ctx, key, sv, name, V, u, oids, v, e, l, spaces, -, -, -, -, -, -, -, -, -, -, hn,
    -⟩ := serverProc_cases h
  exact ⟨some spaces, hn⟩

/-- **No step changes a graph of the server.** -/
theorem System.step_server (hserver : sys.server.masterhost = false) (h : sys.step e = .ok sys') :
    sys'.server.masterhost = false ∧ sys'.server.ufslist = sys.server.ufslist := by
  rw [System.step_eq_stepBy] at h
  cases System.StepBy.of_ok h with
  | idle => exact ⟨hserver, rfl⟩
  | user => exact ⟨hserver, rfl⟩
  | toClient => exact ⟨hserver, rfl⟩
  | toServer _ _ hproc =>
    simp only [controlAlg, hserver, Bool.false_eq_true, if_false] at hproc
    obtain ⟨spaces, rfl⟩ := serverProc_frame hproc
    exact ⟨hserver, rfl⟩

theorem System.run_server (hserver : sys.server.masterhost = false)
    (h : sys.run events = .ok sys') : sys'.server.ufslist = sys.server.ufslist := by
  refine (foldlM_ok (P := fun s : System => s.server.masterhost = false ∧
    s.server.ufslist = sys.server.ufslist) ⟨hserver, rfl⟩ (fun s e _ s' hs hstep => ?_) h).2
  obtain ⟨hm, hu⟩ := System.step_server hs.1 hstep
  exact ⟨hm, hu.trans hs.2⟩

/-- The queries of a key with the elements `E` have the same replies at two nodes. -/
def SameReports (key : Sds) (E : List Sds) (n n' : Node) : Prop :=
  umembersCommand n [umembersCmd, key] = umembersCommand n' [umembersCmd, key] ∧
    ∀ x ∈ E, findCommand n [findCmd, x, key] = findCommand n' [findCmd, x, key]

theorem sameReports_iff {E key g g' p p'}
    (hg : n.graph key = some g) (hg' : n'.graph key = some g') (h : GraphShows E g p)
    (h' : GraphShows E g' p') : SameReports key E n n' ↔ p = p' := by
  have hl := Node.getUfs_eq hg
  have hl' := Node.getUfs_eq hg'
  rw [← sameText_iff h h', SameReports, umembersCommand_eq hl, umembersCommand_eq hl',
    Except.ok.injEq]
  simp only [findCommand_eq hl, findCommand_eq hl']

/-- In every state of a run the server has the graph of its `uinit`, and a client has the same replies
iff it has the partition that the key was initialised with. -/
theorem RunOk.reports (h : RunOk ports inits events) :
    ∃ sys, System.exec ports inits events = .ok sys ∧ RunInv ports inits events sys ∧
      ∀ x ∈ inits, ∀ p ∈ sys.peers, ∃ g q, p.node.graph x.1 = some g ∧ g.key = x.1 ∧
        GraphShows (elementsOf x.2) g q ∧
        (SameReports x.1 (elementsOf x.2) sys.server p.node ↔ q = denote x.2) := by
  obtain ⟨sys, hsys, hrun⟩ := RunInv.exec h
  refine ⟨sys, hsys, hrun, fun x hx p hp => ?_⟩
  obtain ⟨sys0, hboot, hinv0, -, hgraphs⟩ := Inv.boot h.config
  have hserver : sys.server.ufslist = sys0.server.ufslist := by
    rw [System.exec, hboot, ok_bind] at hsys
    exact System.run_server hinv0.static.server hsys
  obtain ⟨g₀, hg0, hshows0⟩ := hgraphs x hx
  rw [← show sys.server.graph x.1 = sys0.server.graph x.1 by rw [Node.graph, hserver]; rfl] at hg0
  obtain ⟨ℓ, Ω, Z, hkey⟩ := hrun.inv.keys x hx
  obtain ⟨i, hi⟩ := List.getElem?_of_mem hp
  obtain ⟨G, hpeer⟩ := hkey.peers i p hi
  obtain ⟨g, hg, hgkey, hshows, -⟩ := hpeer.client.graph
  exact ⟨g, _, hg, hgkey, hshows, (sameReports_iff hg0 hg hshows0 hshows).trans eq_comm⟩

end UfsRedis
