import UfsRedis.Protocol.ClientSteps

/-!
# Steps of the server

`Inv.toServer`: a message at the server keeps the invariant. The operation is the next of the order,
one more has arrived on the sender's link, and one more is on its way to each other client.
-/

namespace UfsRedis

open Lib Option Function List

variable {ports : List Nat} {Ω : List OpId} {p : Peer} {op : UfsOp} {inits : List (Sds × Sds)}
  {sys : System} {rest : List (List Sds)}

/-! ## One client -/

section

variable {E os : List Sds} {ℓ i j num : Nat} {key Z Z' : Sds} {p₀ : Setoid Sds}
  {server server' : Node} {G : Ghost}

/-- The content of the last vertice of the server can be updated with any operation. -/
theorem PeerInv.fromState (h : PeerInv ports E ℓ key p₀ j Ω Z server p G) (hop : OpOk E op) :
    ∃ Z', updateVerticeUfsFromState Z op ℓ = .ok Z' ∧ Z'.length = ℓ ∧
      Shows E Z' (op.act (denote Z)) := by
  rw [← h.last]
  exact (h.link.grid .l).sound.fromState (h.link.grid .l).mem_last hop

theorem PeerInv.perm (h : PeerInv ports E ℓ key p₀ j Ω Z server p G) :
    ((G.L.hist .l).oids (G.L.last .l)).Perm (Ω.map (idText ports)) := by
  rw [G.L.oids_last .l (h.link.le .l)]
  exact h.ids.perm

/-- The operation arrives, at the server's end of the sender's link. -/
theorem PeerInv.arrive (h : PeerInv ports E ℓ key p₀ i Ω Z server p G)
    (hnum : G.nums[G.L.arrived .l]? = some num)
    (hlink : Link E ℓ key (G.L.receive .l A) (update G.V .l V')
      (update (chanOf key p) .l (rest.filter (hasKey key))))
    (hext : (G.L.cells .l).Extends (Mem (G.L.hist .l).ctxs) A)
    (hserver : server'.sver p.node.port key = some ⟨p.node.port, key, ℓ, V'⟩) :
    PeerInv ports E ℓ key p₀ i (Ω ++ [(i, num)]) ((G.L.receive .l A).lastContent .l) server'
      { p with up := rest } ⟨G.L.receive .l A, update G.V .l V', G.nums⟩ where
  link := by
    have hchan : chanOf key { p with up := rest } =
        update (chanOf key p) .l (rest.filter (hasKey key)) := chanOf_up rfl rfl
    rw [hchan]
    exact hlink
  client := by
    refine ⟨h.client.cver, ?_⟩
    rw [show (G.L.receive .l A).lastContent .r = G.L.lastContent .r from
      LinkState.lastContent_receive_flip]
    exact h.client.graph
  server := by
    simp only [update_self]
    exact hserver
  ids := by
    simp only [LinkState.receive_H, LinkState.receive_arrived, update_self]
    exact h.ids.receive hnum
  nums := h.nums
  start := start_update h.start hext
  last := rfl

/-- **An operation of another client** is put at the end of the client's space and sent to it. -/
theorem PeerInv.feed (h : PeerInv ports E ℓ key p₀ j Ω Z server p G) (hports : PortsOk ports)
    (hΩ : OrderOk ports (Ω ++ [(i, num)])) (hj : j < ports.length) (hij : i ≠ j) (hop : OpOk E op)
    (hos : os.Perm (Ω.map (idText ports))) (hZ : updateVerticeUfsFromState Z op ℓ = .ok Z') :
    ∃ V' G', addLast (G.V .l) .r op (idText ports (i, num))
        (fun loc => updateVerticeUfsFromState loc.content op ℓ) = .ok V' ∧
      Space.EdgesKept (G.V .l) V' ∧
      ∀ server', server'.sver p.node.port key = some ⟨p.node.port, key, ℓ, V'⟩ →
        PeerInv ports E ℓ key p₀ j (Ω ++ [(i, num)]) Z' server'
          { p with down := p.down ++ [encode key op (idText ports (i, num)) (ctxText os)] } G' := by
  obtain ⟨S, hS, hlen, hshows⟩ := h.fromState hop
  rw [hZ, Except.ok.injEq] at hS
  subst hS
  let r : OpRec := ⟨idText ports (i, num), G.L.arrived .l, op⟩
  have hids : LinkIds ports j (Ω ++ [(i, num)]) G.nums (G.L.H.push .r r) (G.L.arrived .l) :=
    h.ids.feed hij rfl
  have hoids : (G.L.H.push (Side.flip .l) r).OidsOk := hids.oidsOk hports hΩ hj
  have hcontent : ∀ v : Vertice, v.content = G.L.lastContent .l →
      (fun loc : Vertice => updateVerticeUfsFromState loc.content op ℓ) v = .ok Z' := by
    intro v hv
    simp only [hv, h.last, hZ]
  obtain ⟨V', A, hadd, hlink, hext, hkept, hlast⟩ := h.link.send (r := r) _ hop rfl hoids
    (hos.trans h.perm.symm) hcontent hlen (by rw [h.last]; exact hshows)
  refine ⟨V', ⟨G.L.send .l r A, update G.V .l V', G.nums⟩, hadd, hkept,
    fun server' hserver => ⟨?_, ⟨h.client.cver, ?_⟩, ?_, hids, h.nums, start_update h.start hext,
      hlast⟩⟩
  · have hchan : chanOf key { p with down := p.down ++ [encode key op r.oid (ctxText os)] } =
        update (chanOf key p) .r (chanOf key p .r ++ [encode key op r.oid (ctxText os)]) :=
      chanOf_down rfl filter_hasKey_append
    rw [hchan]
    exact hlink
  · rw [show (G.L.send .l r A).lastContent .r = G.L.lastContent .r from
      LinkState.lastContent_send_flip (h.link.le .r)]
    exact h.client.graph
  simp only [update_self]
  exact hserver

end

/-! ## The spaces and the slaves of the server -/

section

variable {i j : Nat} {spaces : List Verlist} {s : Verlist}

theorem spaceAt_of_nodup (h : (spaces.map fun s => (s.id, s.key)).Nodup) (hs : s ∈ spaces) :
    spaceAt spaces s.id s.key = some s := by
  refine find?_of_unique hs (by simp) fun s' hs' he => inj_on_of_nodup_map h hs' hs ?_
  rw [decide_eq_true_eq] at he
  rw [he.1, he.2]

theorem ConfigOk.nodup_spaces (hc : ConfigOk ports inits) :
    (inits.flatMap fun x => ports.map fun port => (port, x.1)).Nodup := by
  rw [nodup_flatMap]
  refine ⟨fun x _ => hc.ports.nodup.map fun a b hab => (Prod.mk.inj hab).1, ?_⟩
  refine (pairwise_map.mp hc.keys).imp fun {x y} hne => ?_
  intro a ha ha'
  obtain ⟨_, -, rfl⟩ := List.mem_map.mp ha
  obtain ⟨_, -, h⟩ := List.mem_map.mp ha'
  exact hne (Prod.mk.inj h).2.symm

theorem Static.space (h : Static ports inits sys) (hc : ConfigOk ports inits)
    (hspaces : sys.server.sspacelist = some spaces) (hs : s ∈ spaces) :
    sys.server.sver s.id s.key = some s ∧
      ∃ (j : Nat) (q : Peer), sys.peers[j]? = some q ∧ q.node.port = s.id := by
  have hpairs := h.spaces
  rw [hspaces, getD_some] at hpairs
  refine ⟨?_, ?_⟩
  · rw [Node.sver, hspaces, bind_some]
    exact spaceAt_of_nodup (hpairs ▸ hc.nodup_spaces) hs
  have hmem : (s.id, s.key) ∈ inits.flatMap fun x => ports.map fun port => (port, x.1) := by
    rw [← hpairs]
    exact List.mem_map_of_mem hs
  obtain ⟨x, -, hx⟩ := mem_flatMap.mp hmem
  obtain ⟨port, hport, he⟩ := List.mem_map.mp hx
  rw [← h.ports_eq] at hport
  obtain ⟨q, hq, hqp⟩ := List.mem_map.mp hport
  obtain ⟨j, hj⟩ := getElem?_of_mem hq
  exact ⟨j, q, hj, hqp.trans (Prod.mk.inj he).1⟩

theorem mem_replicationFeedExSlave (ports : List Nat) (hmaster : n.masterhost = false)
    (hslaves : n.slaves = ports.mapIdx fun i port => ⟨i, port, false⟩) :
    .slave j ∈ replicationFeedExSlave n i ↔ j < ports.length ∧ j ≠ i := by
  rw [replicationFeedExSlave, hmaster, hslaves]
  simp only [Bool.false_eq_true, if_false, List.mem_map, mem_filter, mem_mapIdx]
  constructor
  · rintro ⟨s, ⟨⟨k, hk, rfl⟩, hne⟩, he⟩
    rw [Dest.slave.injEq] at he
    subst he
    exact ⟨hk, by simpa using hne⟩
  rintro ⟨hlt, hne⟩
  exact ⟨_, ⟨⟨j, hlt, rfl⟩, by simpa using hne⟩, rfl⟩

end

/-! ## The step -/

section

variable {i : Nat} {argv msg : List Sds} {spaces' : List Verlist}

/-- The state after a command of client `i` at the server: `spaces'` are the new spaces, and `msg`
has been sent to the other clients. -/
def System.served (sys : System) (i : Nat) (p : Peer) (rest : List (List Sds))
    (spaces' : List Verlist) (msg : List Sds) : System where
  server := { sys.server with sspacelist := some spaces' }
  peers := feedPeers (replicationFeedExSlave { sys.server with sspacelist := some spaces' } i) msg
    (sys.peers.set i { p with up := rest })

theorem Static.served_peers (h : Static ports inits sys)
    (hq' : (sys.served i p rest spaces' msg).peers[j]? = some q') : (j = i ∧ q' = { p with up := rest }) ∨
      (j ≠ i ∧ ∃ q, sys.peers[j]? = some q ∧ q' = { q with down := q.down ++ [msg] }) := by
  rw [System.served, feedPeers, getElem?_mapIdx, map_eq_some_iff] at hq'
  obtain ⟨q, hq, rfl⟩ := hq'
  have hdest := mem_replicationFeedExSlave (j := j) (i := i) ports
    (n := { sys.server with sspacelist := some spaces' }) h.server h.slaves
  rcases getElem?_set_cases hq with ⟨rfl, rfl⟩ | ⟨hne, hq⟩
  · rw [if_neg fun hmem => (hdest.mp hmem).2 rfl]
    exact .inl ⟨rfl, rfl⟩
  rw [if_pos (hdest.mpr ⟨h.lt hq, hne⟩)]
  exact .inr ⟨hne, q, hq, rfl⟩

theorem served_node (rest : List (List Sds)) (spaces' : List Verlist) (msg : List Sds)
    (hp : sys.peers[i]? = some p) :
    (sys.served i p rest spaces' msg).peers.map (·.node) = sys.peers.map (·.node) := by
  refine ext_getElem? fun j => ?_
  rw [System.served, feedPeers, getElem?_map, getElem?_map, getElem?_mapIdx,
    Option.map_map, getElem?_set]
  have hnode : ∀ (q : Peer) (b : Prop) [Decidable b],
      (if b then { q with down := q.down ++ [msg] } else q).node = q.node := by
    intro q b _
    split <;> rfl
  by_cases hij : i = j
  · subst hij
    rw [if_pos rfl, if_pos (List.getElem?_eq_some_iff.mp hp).1, hp, map_some, map_some]
    exact congrArg some (hnode { p with up := rest } _)
  rw [if_neg hij]
  simp [comp_def, hnode]

variable (h : Static ports inits sys) (hp : sys.peers[i]? = some p)
include h hp

theorem Static.served (hup : p.up = argv :: rest) {spaces}
    (hspaces : sys.server.sspacelist = some spaces)
    (hids : (spaces'.map fun s => (s.id, s.key)) = spaces.map fun s => (s.id, s.key))
    (hmsg : ∃ x ∈ inits, msg.getLast? = some x.1) :
    Static ports inits (sys.served i p rest spaces' msg) := by
  have hnode := served_node rest spaces' msg hp
  refine ⟨?_, fun q hq => ?_, h.server, h.slaves, ?_, fun q hq argv' hargv => ?_⟩
  · rw [← h.ports_eq]
    have := congrArg (List.map Node.port) hnode
    rwa [List.map_map, List.map_map] at this
  · have hmem : q.node ∈ sys.peers.map (·.node) := hnode ▸ List.mem_map_of_mem hq
    obtain ⟨q0, hq0, he⟩ := List.mem_map.mp hmem
    rw [← he]
    exact h.clients q0 hq0
  · rw [← h.spaces, hspaces]
    exact hids
  obtain ⟨j, hj⟩ := getElem?_of_mem hq
  rcases h.served_peers hj with ⟨-, rfl⟩ | ⟨-, q, hq0, rfl⟩
  · refine h.msgs p (mem_of_getElem? hp) _ ?_
    rw [hup]
    exact mem_cons_of_mem _ hargv
  rw [← append_assoc, mem_append, mem_singleton] at hargv
  rcases hargv with hargv | rfl
  · exact h.msgs q (mem_of_getElem? hq0) _ hargv
  · exact hmsg

theorem Static.served_sameKey {key k} (hup : p.up = argv :: rest) (hargv : argv.getLast? = some key)
    {oid ctx} (hk : k ≠ key) {j : Nat} {q'}
    (hq' : (sys.served i p rest spaces' (encode key op oid ctx)).peers[j]? = some q') :
    ∃ q, sys.peers[j]? = some q ∧ SameKey k q q' := by
  rcases h.served_peers hq' with ⟨rfl, rfl⟩ | ⟨-, q, hq, rfl⟩
  · refine ⟨p, hp, rfl, rfl, rfl, le_rfl, chanOf_congr ?_ rfl⟩
    rw [hup, filter_hasKey_cons_of_ne hargv hk]
  · exact ⟨q, hq, rfl, rfl, rfl, le_rfl, chanOf_congr rfl (filter_hasKey_append_of_ne hk)⟩

theorem Static.served_cver {j : Nat} {q q'} (hq : sys.peers[j]? = some q)
    (hq' : (sys.served i p rest spaces' msg).peers[j]? = some q') (k : Sds) :
    q'.node.cver k = q.node.cver k := by
  rcases h.served_peers hq' with ⟨rfl, rfl⟩ | ⟨-, q0, hq0, rfl⟩
  · rw [some.inj (hq.symm.trans hp)]
  · rw [some.inj (hq.symm.trans hq0)]

end

/-! ## The operation at the server -/

variable {x : Sds × Sds} {i ℓ num : Nat} {Z Z' : Sds} {argv os : List Sds}
  {spaces spaces' : List Verlist}

/-- The command of client `i` on the key `x.1` is the operation `(i, num)` in the order of the
server. It has arrived on the space of the client, and has been put as `op` at the end of the spaces
of the other clients. -/
structure Arrival (ports : List Nat) (x : Sds × Sds) (ℓ : Nat) (Ω : List OpId) (Z : Sds)
    (sys : System) (i : Nat) (p : Peer) (rest : List (List Sds)) (num : Nat) (op : UfsOp)
    (os : List Sds) (Z' : Sds) (spaces spaces' : List Verlist) : Prop where
  order : OrderOk ports (Ω ++ [(i, num)])
  opOk : OpOk (elementsOf x.2) op
  context : os.Perm (Ω.map (idText ports))
  content : updateVerticeUfsFromState Z op ℓ = .ok Z'
  before : sys.server.sspacelist = some spaces
  ids : (spaces'.map fun s => (s.id, s.key)) = spaces.map fun s => (s.id, s.key)
  self : ∃ G G', PeerInv ports (elementsOf x.2) ℓ x.1 (denote x.2) i Ω Z sys.server p G ∧
    PeerInv ports (elementsOf x.2) ℓ x.1 (denote x.2) i (Ω ++ [(i, num)]) Z'
      { sys.server with sspacelist := some spaces' } { p with up := rest } G' ∧
    Space.EdgesKept (G.V .l) (G'.V .l)
  others : ∀ id s, id ≠ p.node.port → spaceAt spaces id x.1 = some s →
    ∃ V', addLast s.vertices .r op (idText ports (i, num))
        (fun loc => updateVerticeUfsFromState loc.content op ℓ) = .ok V' ∧
      spaceAt spaces' id x.1 = some { s with vertices := V' }
  keys : ∀ id k, k ≠ x.1 → spaceAt spaces' id k = spaceAt spaces id k

section

variable (hkey : KeyInv ports x.1 x.2 sys ℓ Ω Z) (h : Static ports inits sys)
  (hc : ConfigOk ports inits) (hp : sys.peers[i]? = some p)
include hkey h hc hp

theorem KeyInv.exists_addLast
    (hΩ : OrderOk ports (Ω ++ [(i, num)])) (hop : OpOk (elementsOf x.2) op)
    (hspaces : sys.server.sspacelist = some spaces) (hs : s ∈ spaces)
    (hsk : s.key = x.1) (hid : s.id ≠ p.node.port) :
    ∃ V', addLast s.vertices .r op (idText ports (i, num))
      (fun loc => updateVerticeUfsFromState loc.content op ℓ) = .ok V' := by
  obtain ⟨hsver, j, q, hq, hqp⟩ := h.space hc hspaces hs
  have hij : i ≠ j := by
    rintro rfl
    rw [← hqp, some.inj (hq.symm.trans hp)] at hid
    exact hid rfl
  obtain ⟨G, hpeer⟩ := hkey.peers j q hq
  obtain ⟨Z', hZ', -⟩ := hpeer.fromState hop
  obtain ⟨V', -, hadd, -⟩ := hpeer.feed hc.ports hΩ (h.lt hq) hij hop (.refl _) hZ'
  have hV := hpeer.server
  rw [hqp, ← hsk, hsver, some.injEq] at hV
  exact ⟨V', by rw [hV]; exact hadd⟩

theorem KeyInv.exists_arrival (hup : p.up = argv :: rest)
    (hlast : argv.getLast? = some x.1) : ∃ num op os Z' spaces spaces',
      serverProc sys.server (slaveClient i p.node.port argv) =
        .ok ({ sys.server with sspacelist := some spaces' },
          ⟨encode x.1 op (idText ports (i, num)) (ctxText os), true, none⟩) ∧
      Arrival ports x ℓ Ω Z sys i p rest num op os Z' spaces spaces' := by
  obtain ⟨G, hpeer⟩ := hkey.peers i p hp
  have hchan : chanOf x.1 p .l = argv :: rest.filter (hasKey x.1) := by
    rw [chanOf, hup, filter_hasKey_cons hlast]
  obtain ⟨spaces, hspaces, hsv⟩ := Option.bind_eq_some_iff.mp hpeer.server
  -- the number of the operation, and its place in the order
  have hnext : ∀ r, (G.L.H .l)[G.L.arrived .l]? = some r →
      ∃ num, G.nums[G.L.arrived .l]? = some num ∧ r.oid = idText ports (i, num) ∧
        OrderOk ports (Ω ++ [(i, num)]) := by
    intro r hr
    obtain ⟨num, hnum, hoid⟩ := hpeer.ids.exists_num hr
    exact ⟨num, hnum, hoid, hpeer.ids.order hkey.order (h.lt hp) hnum⟩
  have hfeed : ∀ r, (G.L.H .l)[G.L.arrived .l]? = some r → ∀ op, OpOk (elementsOf x.2) op →
      ∀ s ∈ spaces, s.key = x.1 → s.id ≠ p.node.port → ∃ V', addLast s.vertices .r op r.oid
        (fun loc => updateVerticeUfsFromState loc.content op ℓ) = .ok V' := by
    intro r hr op hop s hs hsk hid
    obtain ⟨num, -, hoid, hΩ⟩ := hnext r hr
    rw [hoid]
    exact hkey.exists_addLast h hc hp hΩ hop hspaces hs hsk hid
  obtain ⟨r, V', A, os, spaces', hr, hproc, hop, hos, hZ, hlink, hext, hkept, hids, hself, hothers,
    hkeys⟩ := serverProc_spec i hpeer.link hchan hspaces hsv hfeed
  obtain ⟨num, hnum, hoid, hΩ⟩ := hnext r hr
  rw [hpeer.last] at hZ
  rw [hoid] at hproc hothers
  refine ⟨num, _, os, _, spaces, spaces', hproc, hΩ, hop, hos.trans hpeer.perm, hZ, hspaces, hids,
    ⟨G, _, hpeer, hpeer.arrive hnum hlink hext hself, ?_⟩, hothers, hkeys⟩
  show Space.EdgesKept (G.V .l) (update G.V .l V' .l)
  rw [update_self]
  exact hkept

end

section

variable (ha : Arrival ports x ℓ Ω Z sys i p rest num op os Z' spaces spaces')
  (hkey : KeyInv ports x.1 x.2 sys ℓ Ω Z) (h : Static ports inits sys) (hc : ConfigOk ports inits)
  (hp : sys.peers[i]? = some p)
include ha hkey h hc hp

theorem Arrival.peers (hq' : (sys.served i p rest spaces'
      (encode x.1 op (idText ports (i, num)) (ctxText os))).peers[j]? = some q') :
    ∃ q G G', sys.peers[j]? = some q ∧ q'.node.port = q.node.port ∧
      PeerInv ports (elementsOf x.2) ℓ x.1 (denote x.2) j Ω Z sys.server q G ∧
      PeerInv ports (elementsOf x.2) ℓ x.1 (denote x.2) j (Ω ++ [(i, num)]) Z'
        { sys.server with sspacelist := some spaces' } q' G' ∧
      Space.EdgesKept (G.V .l) (G'.V .l) := by
  rcases h.served_peers hq' with ⟨rfl, rfl⟩ | ⟨hji, q, hq, rfl⟩
  · obtain ⟨G, G', hG, hG', hkept⟩ := ha.self
    exact ⟨p, G, G', hp, rfl, hG, hG', hkept⟩
  obtain ⟨G, hG⟩ := hkey.peers j q hq
  obtain ⟨V', G', hadd, hkept, hnew⟩ :=
    hG.feed hc.ports ha.order (h.lt hq) hji.symm ha.opOk ha.context ha.content
  have hne : q.node.port ≠ p.node.port := by
    rw [← h.port hq, ← h.port hp]
    exact fun he => hji (hc.ports.inj (h.lt hq) (h.lt hp) he)
  have hsq := hG.server
  rw [Node.sver, ha.before, bind_some] at hsq
  obtain ⟨V'', hadd', hfound⟩ := ha.others _ _ hne hsq
  obtain rfl : V' = V'' := Except.ok.inj (hadd.symm.trans hadd')
  have hG' := hnew { sys.server with sspacelist := some spaces' } hfound
  refine ⟨q, G, G', hq, rfl, hG, hG', ?_⟩
  have hV : V' = G'.V .l := congrArg Verlist.vertices (some.inj (hfound.symm.trans hG'.server))
  rwa [← hV]

theorem Arrival.kept_server {id : Nat} {k sv sv'}
    (hs : sys.server.sver id k = some sv) (hs' : spaceAt spaces' id k = some sv') :
    Space.EdgesKept sv.vertices sv'.vertices := by
  have hs0 := hs
  rw [Node.sver, ha.before, bind_some] at hs0
  by_cases hk : k = x.1
  · subst hk
    obtain ⟨hmem, hid, -⟩ := spaceAt_some hs0
    obtain ⟨-, j, q, hq, hqp⟩ := h.space hc ha.before hmem
    have hlen : (sys.served i p rest spaces'
        (encode x.1 op (idText ports (i, num)) (ctxText os))).peers.length = sys.peers.length := by
      rw [System.served, feedPeers, length_mapIdx, length_set]
    have hlt := hlen ▸ (List.getElem?_eq_some_iff.mp hq).1
    obtain ⟨q0, G, G', hq0, hport, hG, hG', hkept⟩ :=
      ha.peers hkey h hc hp (getElem?_eq_getElem hlt)
    obtain rfl : q0 = q := some.inj (hq0.symm.trans hq)
    have hold := hG.server
    have hnew : spaceAt spaces' _ x.1 = some ⟨_, x.1, ℓ, G'.V .l⟩ := hG'.server
    rw [hqp, hid, hs, some.injEq] at hold
    rw [hport, hqp, hid, hs', some.injEq] at hnew
    rw [hold, hnew]
    exact hkept
  rw [ha.keys id k hk, hs0, some.injEq] at hs'
  rw [hs']
  exact .refl _

end

/-- **A message to the server keeps the invariant.** -/
theorem Inv.toServer (h : Inv ports inits sys) (hc : ConfigOk ports inits)
    (hp : sys.peers[i]? = some p) (hup : p.up = argv :: rest) :
    ∃ spaces' msg, sys.step (.toServer i) = .ok (sys.served i p rest spaces' msg) ∧
      Inv ports inits (sys.served i p rest spaces' msg) ∧
      Kept sys (sys.served i p rest spaces' msg) := by
  obtain ⟨x, hx, hlast⟩ := h.static.msgs p (mem_of_getElem? hp) argv (by simp [hup])
  obtain ⟨ℓ, Ω, Z, hkey⟩ := h.keys x hx
  obtain ⟨num, op, os, Z', spaces, spaces', hproc, ha⟩ :=
    hkey.exists_arrival h.static hc hp hup hlast
  refine ⟨spaces', encode x.1 op (idText ports (i, num)) (ctxText os), ?_,
    ⟨h.static.served hp hup ha.before ha.ids ⟨x, hx, getLast?_encode⟩, fun y hy => ?_⟩,
    fun j q q' hq hq' k cv cv' hcv hcv' => ?_,
    fun id k sv sv' hs hs' => ha.kept_server hkey h.static hc hp hs hs'⟩
  · rw [slaveClient] at hproc
    have hcall : call controlAlg sys.server (slaveClient i p.node.port argv) =
        .ok ({ sys.server with sspacelist := some spaces' },
          ⟨encode x.1 op (idText ports (i, num)) (ctxText os), true, none⟩,
          replicationFeedExSlave { sys.server with sspacelist := some spaces' } i) := by
      simp only [call, controlAlg, h.static.server, slaveClient, Bool.false_eq_true, if_false,
        if_true, hproc, ok_bind, propagate]
      rfl
    rw [System.step, hp]
    simp only [hup, hcall, ok_bind]
    rfl
  · by_cases hyx : y = x
    · subst hyx
      refine ⟨ℓ, Ω ++ [(i, num)], Z', ha.order, fun j q' hq' => ?_⟩
      obtain ⟨-, -, G', -, -, -, hG', -⟩ := ha.peers hkey h.static hc hp hq'
      exact ⟨G', hG'⟩
    obtain ⟨ℓ', Ωy, Zy, hy'⟩ := h.keys y hy
    have hne := hc.key_ne hx hy hyx
    refine ⟨ℓ', Ωy, Zy, hy'.frame
      (fun j q' hq' => h.static.served_sameKey hp hup hlast hne hq') fun id => ?_⟩
    show spaceAt spaces' id y.1 = _
    rw [ha.keys id _ hne, Node.sver, ha.before, bind_some]
  rw [h.static.served_cver hp hq hq' k, hcv, some.injEq] at hcv'
  rw [hcv']
  exact .refl _

end UfsRedis
