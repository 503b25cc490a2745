import UfsRedis.Protocol.Order
import UfsRedis.Protocol.Server
import UfsRedis.Protocol.System

/-!
# The invariant of the system

`Inv`: for each key there is one order of the operations at the server, and each client has a link
whose ends and channels fit it. It depends on a peer only through what `SameKey` lists.
-/

namespace UfsRedis

open Lib Coord Option Function

/-- The command is for `key`. -/
def hasKey (key : Sds) (argv : List Sds) : Bool := argv.getLast? = some key

/-- The messages of a key on the way to the ends of a link. -/
def chanOf (key : Sds) (p : Peer) : Side → List (List Sds)
  | .l => p.up.filter (hasKey key)
  | .r => p.down.filter (hasKey key)

/-- What no step changes, and the keys of the messages. -/
structure Static (ports : List Nat) (inits : List (Sds × Sds)) (sys : System) : Prop where
  ports_eq : sys.peers.map (·.node.port) = ports
  clients : ∀ p ∈ sys.peers, p.node.masterhost = true ∧ p.node.slaveRo = false ∧
    p.node.masterUp = true
  server : sys.server.masterhost = false
  slaves : sys.server.slaves = ports.mapIdx fun i port => ⟨i, port, false⟩
  spaces : ((sys.server.sspacelist.getD []).map fun s => (s.id, s.key)) =
    inits.flatMap fun x => ports.map fun port => (port, x.1)
  msgs : ∀ p ∈ sys.peers, ∀ argv ∈ p.up ++ p.down, ∃ x ∈ inits, argv.getLast? = some x.1

/-- What the model of a link adds to the state: the history and the grids, the state spaces, and the
numbers of the client's operations. -/
structure Ghost where
  L : LinkState
  V : Side → Space
  nums : List Nat

/-- Client `i` of a key with elements `E` and first partition `p₀`. -/
structure PeerInv (ports : List Nat) (E : List Sds) (ℓ : Nat) (key : Sds) (p₀ : Setoid Sds) (i : Nat)
    (Ω : List OpId) (Z : Sds) (server : Node) (p : Peer) (G : Ghost) : Prop where
  link : Link E ℓ key G.L G.V (chanOf key p)
  client : ClientEnd E ℓ key G.L p.node (G.V .r)
  server : server.sver p.node.port key = some ⟨p.node.port, key, ℓ, G.V .l⟩
  ids : LinkIds ports i Ω G.nums G.L.H (G.L.arrived .l)
  nums : ∀ k ∈ G.nums, k ≤ p.node.opNum
  start : ∀ s, denote ((G.L.cells s).content zero) = p₀
  last : G.L.lastContent .l = Z

/-- All clients of the key that was initialised with `S`. -/
structure KeyInv (ports : List Nat) (key S : Sds) (sys : System) (ℓ : Nat) (Ω : List OpId)
    (Z : Sds) : Prop where
  order : OrderOk ports Ω
  peers : ∀ i p, sys.peers[i]? = some p →
    ∃ G, PeerInv ports (elementsOf S) ℓ key (denote S) i Ω Z sys.server p G

/-- **The invariant.** -/
structure Inv (ports : List Nat) (inits : List (Sds × Sds)) (sys : System) : Prop where
  static : Static ports inits sys
  keys : ∀ x ∈ inits, ∃ ℓ Ω Z, KeyInv ports x.1 x.2 sys ℓ Ω Z

/-- The edges of all state spaces are kept. -/
structure Kept (sys sys' : System) : Prop where
  clients : ∀ (i : Nat) (p p' : Peer), sys.peers[i]? = some p → sys'.peers[i]? = some p' →
    ∀ key cv cv', p.node.cver key = some cv → p'.node.cver key = some cv' →
      Space.EdgesKept cv.vertices cv'.vertices
  server : ∀ id key sv sv', sys.server.sver id key = some sv → sys'.server.sver id key = some sv' →
    Space.EdgesKept sv.vertices sv'.vertices

theorem Space.EdgesKept.refl (V : Space) : V.EdgesKept V := fun _ _ _ h => h

theorem Kept.refl (sys : System) : Kept sys sys := by
  refine ⟨fun i p p' hp hp' key cv cv' hcv hcv' => ?_, fun id key sv sv' hsv hsv' => ?_⟩
  · rw [hp, some.injEq] at hp'
    subst hp'
    rw [hcv, some.injEq] at hcv'
    subst hcv'
    exact .refl _
  rw [hsv, some.injEq] at hsv'
  subst hsv'
  exact .refl _

/-! ## Commands on another key -/

/-- The peer has the same state of `key`. -/
structure SameKey (key : Sds) (p p' : Peer) : Prop where
  port : p'.node.port = p.node.port
  cver : p'.node.cver key = p.node.cver key
  graph : p'.node.graph key = p.node.graph key
  opNum : p.node.opNum ≤ p'.node.opNum
  chan : chanOf key p' = chanOf key p

section

variable {ports : List Nat} {E : List Sds} {ℓ i : Nat} {key S Z : Sds} {p₀ : Setoid Sds}
  {Ω : List OpId} {server server' : Node} {p p' : Peer} {G : Ghost} {sys sys' : System}

theorem SameKey.refl (key : Sds) (p : Peer) : SameKey key p p := ⟨rfl, rfl, rfl, Nat.le_refl _, rfl⟩

theorem PeerInv.frame (h : PeerInv ports E ℓ key p₀ i Ω Z server p G) (hp : SameKey key p p')
    (hs : ∀ id, server'.sver id key = server.sver id key) :
    PeerInv ports E ℓ key p₀ i Ω Z server' p' G where
  link := hp.chan ▸ h.link
  client := ⟨hp.cver.trans h.client.cver, hp.graph ▸ h.client.graph⟩
  server := by rw [hp.port, hs]; exact h.server
  ids := h.ids
  nums k hk := Nat.le_trans (h.nums k hk) hp.opNum
  start := h.start
  last := h.last

/-- A step that does not touch a key keeps the invariant of the key. -/
theorem KeyInv.frame (h : KeyInv ports key S sys ℓ Ω Z)
    (hpeers : ∀ (i : Nat) p', sys'.peers[i]? = some p' →
      ∃ p, sys.peers[i]? = some p ∧ SameKey key p p')
    (hserver : ∀ id, sys'.server.sver id key = sys.server.sver id key) :
    KeyInv ports key S sys' ℓ Ω Z where
  order := h.order
  peers i p' hp' := by
    obtain ⟨p, hp, hsame⟩ := hpeers i p' hp'
    obtain ⟨G, hG⟩ := h.peers i p hp
    exact ⟨G, hG.frame hsame hserver⟩

end

/-! ## The other end -/

section

variable {L : LinkState} {s : Side} {r : OpRec} {A : Cells}

theorem LinkState.hist_send_flip (h : L.arrived s.flip ≤ (L.H s.flip).length) :
    (L.send s r A).hist s.flip = L.hist s.flip := by
  rw [LinkState.hist, LinkState.send_H, LinkState.send_arrived, History.push_cut h]
  rfl

theorem LinkState.lastContent_send_flip (h : L.arrived s.flip ≤ (L.H s.flip).length) :
    (L.send s r A).lastContent s.flip = L.lastContent s.flip := by
  rw [LinkState.lastContent, LinkState.last, LinkState.hist_send_flip h, LinkState.send_cells,
    update_of_ne (Side.flip_ne s)]
  rfl

theorem LinkState.lastContent_receive_flip :
    (L.receive s A).lastContent s.flip = L.lastContent s.flip := by
  rw [LinkState.lastContent, LinkState.last, LinkState.hist, LinkState.receive_H,
    LinkState.receive_arrived, LinkState.receive_cells, update_of_ne (Side.flip_ne s),
    update_of_ne (Side.flip_ne s)]
  rfl

theorem start_update (h : ∀ t, denote ((L.cells t).content zero) = p₀)
    (hext : (L.cells s).Extends (Mem (L.hist s).ctxs) A) (t : Side) :
    denote ((update L.cells s A t).content zero) = p₀ := by
  rcases s.eq_or_eq_flip t with rfl | rfl
  · rw [update_self, hext.content _ (mem_zero _)]
    exact h t
  rw [update_of_ne (Side.flip_ne s)]
  exact h _

end

/-! ## Ports and numbers -/

variable {ports : List Nat} {inits : List (Sds × Sds)} {sys : System} {i : Nat} {p : Peer}

section

variable (h : Static ports inits sys) (hp : sys.peers[i]? = some p)
include h hp

theorem Static.lt : i < ports.length := by
  rw [← h.ports_eq, List.length_map]
  exact (List.getElem?_eq_some_iff.mp hp).1

theorem Static.port : ports.getD i 0 = p.node.port := by
  rw [← h.ports_eq, List.getD_eq_getElem?_getD, List.getElem?_map, hp]
  rfl

theorem Static.idText (num : Nat) : idText ports (i, num) = oidText p.node.port num := by
  rw [UfsRedis.idText, h.port hp]

end

variable {nums : List Nat} {H : History} {arrived : Nat}

theorem LinkIds.length (h : LinkIds ports i Ω nums H arrived) : (H .l).length = nums.length := by
  simpa using congrArg List.length h.own

theorem LinkIds.exists_num {Ω} {k : Nat}
    {r} (h : LinkIds ports i Ω nums H arrived) (hr : (H .l)[k]? = some r) :
    ∃ num, nums[k]? = some num ∧ r.oid = UfsRedis.idText ports (i, num) := by
  have := congrArg (·[k]?) h.own
  simp only [List.getElem?_map, hr, map_some] at this
  obtain ⟨num, hnum, he⟩ := Option.map_eq_some_iff.mp this.symm
  exact ⟨num, hnum, he.symm⟩

end UfsRedis
