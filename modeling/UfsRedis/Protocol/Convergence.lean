import UfsRedis.Protocol.Run

/-!
# Convergence

In a quiet state the graphs of all clients have one partition, if no element is named `*`. In every
state the graph of a client has the partition of its last vertice. The runs after the theorems fail
where a name or a port breaks a condition.
-/

namespace UfsRedis

open Lib Coord

variable {ports : List Nat} {inits : List (Sds × Sds)} {E : List Sds} {ℓ i : Nat} {key Z : Sds}
  {p₀ : Setoid Sds} {Ω : List OpId} {server : Node} {p : Peer} {G : Ghost} {sys : System}
  {events : List Event} {x : Sds × Sds}

theorem chanOf_nil (hup : p.up = []) (hdown : p.down = []) (s : Side) : chanOf key p s = [] := by
  cases s with
  | l => rw [chanOf, hup]; rfl
  | r => rw [chanOf, hdown]; rfl

section

variable (h : PeerInv ports E ℓ key p₀ i Ω Z server p G)
include h

theorem PeerInv.hist_eq (s : Side) (hchan : chanOf key p s = []) : G.L.hist s = G.L.H := by
  have hc := (h.link.chan s).length_eq
  rw [hchan, List.length_nil, Nat.add_zero] at hc
  exact History.cut_length hc

/-- **The ends of a link agree** when nothing is on the way. -/
theorem PeerInv.quiet (hstar : star ∉ E)
    (hchan : ∀ s, chanOf key p s = []) : denote (G.L.lastContent .r) = denote Z := by
  have hl := h.hist_eq .l (hchan .l)
  have hr := h.hist_eq .r (hchan .r)
  have hgl := h.link.grid .l
  have hgr := h.link.grid .r
  rw [hl] at hgl
  rw [hr] at hgr
  have hzero : denote ((G.L.cells .r).content zero) = denote ((G.L.cells .l).content zero) := by
    rw [h.start, h.start]
  have hagree := Sound.agree hgr.stair hstar hgr.sound hgl.sound hzero hgr.mem_last
  rw [← h.last, LinkState.lastContent, LinkState.lastContent, LinkState.last, LinkState.last, hl, hr]
  exact hagree

theorem PeerInv.content_graph : ∃ cv g u S, p.node.cver key = some cv ∧ p.node.graph key = some g ∧
      locateLast cv.vertices = .ok (some u) ∧ cv.vertices.contentAt u = some S ∧
      g.names = E ∧ g.partition = denote S := by
  obtain ⟨g, hg, -, hshows, -⟩ := h.client.graph
  have hgrid := h.link.grid .r
  exact ⟨_, g, _, _, h.client.cver, hg, hgrid.layout.locateLast hgrid.stair,
    hgrid.layout.content _ hgrid.mem_last, hshows.names, hshows.partition⟩

end

/-- **Convergence.** In every state of a run without messages on the way, the graphs of a key at all
clients denote the same partition of its elements. -/
theorem clients_converge (h : RunOk ports inits events)
    (hstar : ∀ x ∈ inits, star ∉ elementsOf x.2) :
    ∃ sys, System.exec ports inits events = .ok sys ∧ (sys.Quiet → ∀ x ∈ inits,
      ∃ P : Setoid Sds, ∀ p ∈ sys.peers, ∃ g, p.node.graph x.1 = some g ∧
        g.names = elementsOf x.2 ∧ g.partition = P) := by
  obtain ⟨sys, hsys, hrun⟩ := RunInv.exec h
  refine ⟨sys, hsys, fun hquiet x hx => ?_⟩
  obtain ⟨ℓ, Ω, Z, hkey⟩ := hrun.inv.keys x hx
  refine ⟨denote Z, fun p hp => ?_⟩
  obtain ⟨i, hi⟩ := List.getElem?_of_mem hp
  obtain ⟨G, hpeer⟩ := hkey.peers i p hi
  obtain ⟨g, hg, -, hshows, -⟩ := hpeer.client.graph
  obtain ⟨hup, hdown⟩ := hquiet p hp
  exact ⟨g, hg, hshows.names,
    hshows.partition.trans (hpeer.quiet (hstar x hx) (chanOf_nil hup hdown))⟩

/-- The run ends without messages on the way. -/
theorem clients_converge_union_split : ∃ sys,
    System.exec [6380, 6381] [(['k'], ['a', ',', 'b'])] demoRun = .ok sys ∧ sys.Quiet ∧
      ∃ P : Setoid Sds, ∀ p ∈ sys.peers, ∃ g, p.node.graph ['k'] = some g ∧
        g.names = [['a'], ['b']] ∧ g.partition = P := by
  refine exists_ok_imp (P := System.Quiet) (by decide +kernel) fun sys hsys hq => ?_
  obtain ⟨sys', hsys', hconv⟩ := clients_converge demoRun_ok (by decide)
  rw [hsys, Except.ok.injEq] at hsys'
  subst hsys'
  exact ⟨hq, hconv hq _ (List.mem_singleton_self _)⟩

/-- A run with ports below 6379, whose clients both call their first operation `_1`. -/
def divergingRun : List Event :=
  [.user 0 [unionCmd, ['a'], ['b'], ['k']], .user 0 [unionCmd, ['a'], ['b'], ['k']],
    .user 1 [splitCmd, ['a'], ['k']], .toServer 0, .toServer 0, .toServer 1, .toClient 1,
    .toClient 1, .toClient 0]

/-- After it one client has the classes `a` and `b`, and the other one has them in one class. -/
theorem clients_diverge : ∃ sys,
    System.exec [6001, 6002] [(['k'], ['a', ',', 'b'])] divergingRun = .ok sys ∧ sys.Quiet ∧
      ∃ p ∈ sys.peers, ∃ q ∈ sys.peers, ∃ g g', p.node.graph ['k'] = some g ∧
        q.node.graph ['k'] = some g' ∧ g.partition ≠ g'.partition := by
  refine exists_ok_imp (P := fun sys => sys.Quiet ∧ sys.peers.map (·.node.graph ['k']) =
    [some ⟨['k'], 2, [⟨['a'], []⟩, ⟨['b'], []⟩]⟩, some ⟨['k'], 4, [⟨['a'], [1]⟩, ⟨['b'], [0]⟩]⟩])
    (by decide +kernel) ?_
  rintro sys - ⟨hquiet, hgraphs⟩
  obtain ⟨p, rest, hpeers, hp, hrest⟩ := List.map_eq_cons_iff.mp hgraphs
  obtain ⟨q, rest', rfl, hq, -⟩ := List.map_eq_cons_iff.mp hrest
  refine ⟨hquiet, p, by simp [hpeers], q, by simp [hpeers], _, _, hp, hq, fun heq => ?_⟩
  have hab := partition_of_mem_adj (g := ⟨['k'], 4, [⟨['a'], [1]⟩, ⟨['b'], [0]⟩]⟩) (u := 0) (v := 1)
    (by decide) (by decide) (by decide)
  rw [← heq, partition_eq_bot fun u => ?_] at hab
  · exact absurd hab (by decide : ¬ (['a'] : Sds) = ['b'])
  · rcases u with _ | _ | u <;> rfl

/-- **The content of a client's last vertice denotes the partition of its graph** in every state of
a run. -/
theorem content_eq_graph (h : RunOk ports inits events) :
    ∃ sys, System.exec ports inits events = .ok sys ∧ ∀ x ∈ inits, ∀ p ∈ sys.peers,
      ∃ cv g u S, p.node.cver x.1 = some cv ∧ p.node.graph x.1 = some g ∧
        locateLast cv.vertices = .ok (some u) ∧ cv.vertices.contentAt u = some S ∧
        g.names = elementsOf x.2 ∧ g.partition = denote S := by
  obtain ⟨sys, hsys, hrun⟩ := RunInv.exec h
  refine ⟨sys, hsys, fun x hx p hp => ?_⟩
  obtain ⟨ℓ, Ω, Z, hkey⟩ := hrun.inv.keys x hx
  obtain ⟨i, hi⟩ := List.getElem?_of_mem hp
  obtain ⟨G, hpeer⟩ := hkey.peers i p hi
  exact hpeer.content_graph

theorem content_eq_graph_union_split : ∃ sys,
    System.exec [6380, 6381] [(['k'], ['a', ',', 'b'])] demoRun = .ok sys ∧
      ∀ x ∈ [(['k'], ['a', ',', 'b'])], ∀ p ∈ sys.peers, ∃ cv g u S, p.node.cver x.1 = some cv ∧
        p.node.graph x.1 = some g ∧ locateLast cv.vertices = .ok (some u) ∧
        cv.vertices.contentAt u = some S ∧ g.names = elementsOf x.2 ∧ g.partition = denote S :=
  content_eq_graph demoRun_ok

/-- A run with ports below 6379, whose clients both call their first operation `_1`. -/
def mislocatedRun : List Event :=
  [.user 1 [splitCmd, ['b'], ['k']], .user 1 [unionCmd, ['a'], ['a'], ['k']], .toServer 1,
    .toServer 1, .user 0 [unionCmd, ['b'], ['a'], ['k']], .toClient 0, .toClient 0]

/-- After it the last vertice of client 0 has one class, and its graph has two. -/
theorem content_ne_graph : ∃ sys,
    System.exec [6001, 6002] [(['k'], ['a', ',', 'b'])] mislocatedRun = .ok sys ∧
      ∃ p ∈ sys.peers, ∃ cv g u S, p.node.cver ['k'] = some cv ∧ p.node.graph ['k'] = some g ∧
        locateLast cv.vertices = .ok (some u) ∧ cv.vertices.contentAt u = some S ∧
        g.partition ≠ denote S := by
  refine exists_ok_imp (P := fun sys => ∃ p ∈ sys.peers, ∃ cv ∈ p.node.cver ['k'],
    p.node.graph ['k'] = some ⟨['k'], 2, [⟨['a'], []⟩, ⟨['b'], []⟩]⟩ ∧
    locateLast cv.vertices = .ok (some 4) ∧
    cv.vertices.contentAt 4 = some ['a', ',', 'b']) (by decide +kernel) ?_
  rintro sys - ⟨p, hp, cv, hcv, hg, hloc, hS⟩
  refine ⟨p, hp, cv, _, 4, _, hcv, hg, hloc, hS, fun heq => ?_⟩
  have hab : denote ['a', ',', 'b'] ['a'] ['b'] :=
    (WellFormed.denote_iff (by decide)).mpr (by decide)
  rw [← heq, partition_eq_bot fun u => ?_] at hab
  · exact absurd hab (by decide : ¬ (['a'] : Sds) = ['b'])
  · rcases u with _ | _ | u <;> rfl

end UfsRedis
