import UfsRedis.Protocol.Invariant

/-!
# Steps of a client

A command of a user (`Inv.user`) and a message from the server (`Inv.toClient`) keep the invariant.
The first is sent once and the second is removed; other keys and clients are as before.
-/

namespace UfsRedis

open Lib Option Function List

/-- The conditions on the configuration: the ports, and one `uinit` for each key, with distinct
nonempty names. -/
structure ConfigOk (ports : List Nat) (inits : List (Sds × Sds)) : Prop where
  ports : PortsOk ports
  keys : (inits.map Prod.fst).Nodup
  wellFormed : ∀ x ∈ inits, WellFormed x.2

variable {argv : List Sds} {p' p : Peer} {ports : List Nat} {inits : List (Sds × Sds)}
  {sys : System} {x : Sds × Sds} {Ω : List OpId}

section

variable {key k oid ctx : Sds} {l : List (List Sds)} {op : UfsOp}

theorem hasKey_encode : hasKey k (encode key op oid ctx) = decide (key = k) := by
  unfold encode hasKey
  cases op.optype <;> simp

theorem getLast?_encode : (encode key op oid ctx).getLast? = some key := by
  unfold encode
  cases op.optype <;> simp

section

variable (h : argv.getLast? = some key)
include h

theorem keyArg_eq : keyArg argv = .ok key := by
  rw [keyArg, h]

theorem filter_hasKey_cons : (argv :: l).filter (hasKey key) = argv :: l.filter (hasKey key) :=
  filter_cons_of_pos (by simp [hasKey, h])

theorem filter_hasKey_cons_of_ne (hk : k ≠ key) :
    (argv :: l).filter (hasKey k) = l.filter (hasKey k) :=
  filter_cons_of_neg (by simp [hasKey, h, hk.symm])

end

theorem filter_hasKey_append : (l ++ [encode key op oid ctx]).filter (hasKey key) =
      l.filter (hasKey key) ++ [encode key op oid ctx] := by
  simp [hasKey_encode]

theorem filter_hasKey_append_of_ne (hk : k ≠ key) :
    (l ++ [encode key op oid ctx]).filter (hasKey k) = l.filter (hasKey k) := by
  simp [hasKey_encode, hk.symm]

theorem chanOf_up (hdown : p'.down = p.down) (hup : p'.up.filter (hasKey key) = l) :
    chanOf key p' = update (chanOf key p) .l l := by
  funext s
  cases s with
  | l => simpa [chanOf] using hup
  | r => simp [chanOf, hdown]

theorem chanOf_down (hup : p'.up = p.up) (hdown : p'.down.filter (hasKey key) = l) :
    chanOf key p' = update (chanOf key p) .r l := by
  funext s
  cases s with
  | l => simp [chanOf, hup]
  | r => simpa [chanOf] using hdown

theorem chanOf_congr (hup : p'.up.filter (hasKey k) = p.up.filter (hasKey k))
    (hdown : p'.down.filter (hasKey k) = p.down.filter (hasKey k)) : chanOf k p' = chanOf k p := by
  funext s
  cases s with
  | l => exact hup
  | r => exact hdown

end

section

variable {i ℓ : Nat} {G G' : Ghost} {Z : Sds}

theorem ConfigOk.key_ne (hc : ConfigOk ports inits) (hx : x ∈ inits)
    (hy : y ∈ inits) (hne : y ≠ x) : y.1 ≠ x.1 := fun h =>
  hne (inj_on_of_nodup_map hc.keys hy hx h)

theorem Static.set (h : Static ports inits sys) (hp : sys.peers[i]? = some p)
    (hframe : Node.Frame key p.node p'.node)
    (hmsgs : ∀ argv ∈ p'.up ++ p'.down, ∃ y ∈ inits, argv.getLast? = some y.1) :
    Static ports inits { sys with peers := sys.peers.set i p' } := by
  have hlt : i < sys.peers.length := (List.getElem?_eq_some_iff.mp hp).1
  have hmem : p ∈ sys.peers := mem_of_getElem? hp
  refine ⟨?_, fun q hq => ?_, h.server, h.slaves, h.spaces, fun q hq => ?_⟩
  · rw [map_set, hframe.port, ← h.ports_eq]
    refine ext_getElem? fun j => ?_
    rw [getElem?_set]
    by_cases hij : i = j
    · subst hij
      simp [hlt, (List.getElem?_eq_some_iff.mp hp).2]
    · rw [if_neg hij]
  · rcases mem_or_eq_of_mem_set hq with hq | rfl
    · exact h.clients q hq
    rw [hframe.masterhost, hframe.slaveRo, hframe.masterUp]
    exact h.clients p hmem
  rcases mem_or_eq_of_mem_set hq with hq | rfl
  · exact h.msgs q hq
  · exact hmsgs

theorem Inv.set (h : Inv ports inits sys) (hc : ConfigOk ports inits) (hx : x ∈ inits)
    (hp : sys.peers[i]? = some p) (p' : Peer) (G' : Ghost) (hframe : Node.Frame x.1 p.node p'.node)
    (hnum : p.node.opNum ≤ p'.node.opNum) (hchan : ∀ k ≠ x.1, chanOf k p' = chanOf k p)
    (hmsgs : ∀ argv ∈ p'.up ++ p'.down, ∃ y ∈ inits, argv.getLast? = some y.1)
    (hkey : KeyInv ports x.1 x.2 sys ℓ Ω Z)
    (hold : PeerInv ports (elementsOf x.2) ℓ x.1 (denote x.2) i Ω Z sys.server p G)
    (hpeer : PeerInv ports (elementsOf x.2) ℓ x.1 (denote x.2) i Ω Z sys.server p' G')
    (hkept : Space.EdgesKept (G.V .r) (G'.V .r)) :
    Inv ports inits { sys with peers := sys.peers.set i p' } ∧
      Kept sys { sys with peers := sys.peers.set i p' } := by
  refine ⟨⟨h.static.set hp hframe hmsgs, fun y hy => ?_⟩, fun j q q' hq hq' k cv cv' hcv hcv' => ?_,
    (Kept.refl sys).server⟩
  · by_cases hyx : y = x
    · subst hyx
      refine ⟨ℓ, Ω, Z, hkey.order, fun j q hq => ?_⟩
      rcases getElem?_set_cases hq with ⟨rfl, rfl⟩ | ⟨-, hq⟩
      · exact ⟨G', hpeer⟩
      · exact hkey.peers j q hq
    obtain ⟨ℓ', Ωy, Zy, hy'⟩ := h.keys y hy
    have hne := hc.key_ne hx hy hyx
    refine ⟨ℓ', Ωy, Zy, hy'.frame (fun j q hq => ?_) fun _ => rfl⟩
    rcases getElem?_set_cases hq with ⟨rfl, rfl⟩ | ⟨-, hq⟩
    · exact ⟨p, hp, hframe.port, hframe.cver _ hne, hframe.graph _ hne, hnum, hchan _ hne⟩
    · exact ⟨q, hq, .refl _ _⟩
  rcases getElem?_set_cases hq' with ⟨rfl, rfl⟩ | ⟨-, hq'⟩
  · rw [hp, some.injEq] at hq
    subst hq
    by_cases hk : k = x.1
    · subst hk
      rw [hold.client.cver, some.injEq] at hcv
      rw [hpeer.client.cver, some.injEq] at hcv'
      rw [← hcv, ← hcv']
      exact hkept
    rw [hframe.cver k hk, hcv, some.injEq] at hcv'
    rw [hcv']
    exact .refl _
  · exact (Kept.refl sys).clients j q q' hq hq' k cv cv' hcv hcv'

end

section

variable {E : List Sds} {ℓ i : Nat} {key Z : Sds} {p₀ : Setoid Sds} {server n' : Node} {G : Ghost}
  {V' : Space} {A : Cells}

/-- An operation of a user is put at the end of the client's space and sent to the server. -/
theorem PeerInv.send (h : PeerInv ports E ℓ key p₀ i Ω Z server p G)
    (hids : LinkIds ports i Ω (G.nums ++ [p.node.opNum + 1])
      (G.L.H.push .l (nextRec G.L p.node op)) (G.L.arrived .l))
    (hport : n'.port = p.node.port) (hnum : n'.opNum = p.node.opNum + 1)
    (hend : ClientEnd E ℓ key (G.L.send .r (nextRec G.L p.node op) A) n' V')
    (hlink : Link E ℓ key (G.L.send .r (nextRec G.L p.node op) A) (update G.V .r V')
      (update (chanOf key p) .l
        (chanOf key p .l ++ [encode key op (nextRec G.L p.node op).oid (ctxText os)])))
    (hext : (G.L.cells .r).Extends (Mem (G.L.hist .r).ctxs) A) :
    PeerInv ports E ℓ key p₀ i Ω Z server
      { p with
        node := n'
        up := p.up ++ [encode key op (nextRec G.L p.node op).oid (ctxText os)] }
      ⟨G.L.send .r (nextRec G.L p.node op) A, update G.V .r V', G.nums ++ [p.node.opNum + 1]⟩ := by
  refine ⟨?_, ?_, ?_, hids, fun k hk => ?_, start_update h.start hext, ?_⟩
  · have hchan : chanOf key { p with
          node := n', up := p.up ++ [encode key op (nextRec G.L p.node op).oid (ctxText os)] } =
        update (chanOf key p) .l
          (chanOf key p .l ++ [encode key op (nextRec G.L p.node op).oid (ctxText os)]) :=
      chanOf_up rfl filter_hasKey_append
    rw [hchan]
    exact hlink
  · simp only [update_self]
    exact hend
  · simp only [hport, ne_eq, reduceCtorEq, not_false_eq_true, update_of_ne]
    exact h.server
  · simp only [hnum] at hk ⊢
    rcases mem_append.mp hk with hk | hk
    · have := h.nums k hk
      omega
    · rw [mem_singleton.mp hk]
  rw [← h.last]
  exact LinkState.lastContent_send_flip (s := .r) (h.link.le .l)

/-- A message from the server, at the client's end of the link. -/
theorem PeerInv.receive (h : PeerInv ports E ℓ key p₀ i Ω Z server p G)
    (hport : n'.port = p.node.port) (hnum : n'.opNum = p.node.opNum)
    (hend : ClientEnd E ℓ key (G.L.receive .r A) n' V')
    (hlink : Link E ℓ key (G.L.receive .r A) (update G.V .r V')
      (update (chanOf key p) .r (rest.filter (hasKey key))))
    (hext : (G.L.cells .r).Extends (Mem (G.L.hist .r).ctxs) A) :
    PeerInv ports E ℓ key p₀ i Ω Z server { p with node := n', down := rest }
      ⟨G.L.receive .r A, update G.V .r V', G.nums⟩ := by
  refine ⟨?_, ?_, ?_, h.ids, ?_, start_update h.start hext, ?_⟩
  · have hchan : chanOf key { p with node := n', down := rest } =
        update (chanOf key p) .r (rest.filter (hasKey key)) := chanOf_down rfl rfl
    rw [hchan]
    exact hlink
  · simp only [update_self]
    exact hend
  · simp only [hport, ne_eq, reduceCtorEq, not_false_eq_true, update_of_ne]
    exact h.server
  · simp only [hnum]
    exact h.nums
  rw [← h.last]
  exact LinkState.lastContent_receive_flip (s := .r)

end

variable {i : Nat} {op : UfsOp}

/-- **A command of a user** is rejected and changes nothing, or is executed and sent to the
server. -/
theorem Inv.user (h : Inv ports inits sys) (hc : ConfigOk ports inits) (hx : x ∈ inits)
    (hcmd : LocalCmd x.1 op argv) (hp : sys.peers[i]? = some p) (hnum : p.node.opNum < 9999) :
    ∃ p', sys.step (.user i argv) = .ok { sys with peers := sys.peers.set i p' } ∧
      Inv ports inits { sys with peers := sys.peers.set i p' } ∧
      Kept sys { sys with peers := sys.peers.set i p' } ∧ p'.node.opNum ≤ p.node.opNum + 1 := by
  obtain ⟨ℓ, Ω, Z, hkey⟩ := h.keys x hx
  obtain ⟨G, hpeer⟩ := hkey.peers i p hp
  have hmem : p ∈ sys.peers := mem_of_getElem? hp
  obtain ⟨hmaster, hro, hup⟩ := h.static.clients p hmem
  have hlt := h.static.lt hp
  have hrange := hc.ports.range_getD hlt
  rw [h.static.port hp] at hrange
  -- the new number is larger than all earlier ones
  have hids : LinkIds ports i Ω (G.nums ++ [p.node.opNum + 1])
      (G.L.H.push .l (nextRec G.L p.node op)) (G.L.arrived .l) := by
    refine hpeer.ids.send (fun k hk => Nat.lt_succ_of_le (hpeer.nums k hk))
      (h.static.idText hp _).symm ?_
    rw [← hpeer.ids.length]
    exact hpeer.link.le .l
  have hstep : ∀ p', p.exec (userClient argv) = .ok p' →
      sys.step (.user i argv) = .ok { sys with peers := sys.peers.set i p' } := by
    intro p' hp'
    rw [System.step, hp]
    simp [hp']
  rcases localProc_spec hpeer.link hpeer.client hcmd hrange.2 hnum
    (hids.oidsOk hc.ports hkey.order hlt) with ⟨e, he⟩ | ⟨n', V', A, os, he, hframe, hnum', hop, hend,
      hlink', hext, hkept⟩
  · have hexec : p.exec (userClient argv) = .ok p := by
      simp only [Peer.exec, call, controlAlg, hmaster, userClient, if_true, Bool.false_eq_true,
        if_false, he, ok_bind, propagate]
      rfl
    have hsame : ({ sys with peers := sys.peers.set i p } : System) = sys := by
      have : sys.peers.set i p = sys.peers := by
        obtain ⟨hlt, rfl⟩ := List.getElem?_eq_some_iff.mp hp
        exact set_getElem_self hlt
      rw [this]
    refine ⟨p, hstep p hexec, ?_, ?_, by omega⟩
    · rwa [hsame]
    rw [hsame]
    exact .refl _
  set msg := encode x.1 op (nextRec G.L p.node op).oid (ctxText os) with hmsg
  have hexec : p.exec (userClient argv) = .ok { p with node := n', up := p.up ++ [msg] } := by
    simp only [Peer.exec, call, controlAlg, hmaster, userClient, if_true, Bool.false_eq_true,
      if_false, he, ok_bind, propagate, hframe.masterhost, hframe.slaveRo, hro,
      replicationFeedMaster, hframe.masterUp, hup]
    rfl
  have hset := h.set hc hx hp { p with node := n', up := p.up ++ [msg] }
    (⟨G.L.send .r (nextRec G.L p.node op) A, update G.V .r V',
      G.nums ++ [p.node.opNum + 1]⟩) hframe (by rw [hnum']; omega) ?_ ?_ hkey hpeer ?_ ?_
  · exact ⟨_, hstep _ hexec, hset.1, hset.2, by rw [hnum']⟩
  · intro k hk
    exact chanOf_congr (filter_hasKey_append_of_ne hk) rfl
  · intro argv' hargv
    simp only [mem_append, mem_singleton] at hargv
    rcases hargv with (hargv | rfl) | hargv
    · exact h.static.msgs p hmem _ (mem_append_left _ hargv)
    · exact ⟨x, hx, getLast?_encode⟩
    · exact h.static.msgs p hmem _ (mem_append_right _ hargv)
  · exact hpeer.send hids hframe.port hnum' hend hlink' hext
  simp only [update_self]
  exact hkept

/-- **A message to a client keeps the invariant.** -/
theorem Inv.toClient (h : Inv ports inits sys) (hc : ConfigOk ports inits)
    (hp : sys.peers[i]? = some p) {rest} (hdown : p.down = argv :: rest) :
    ∃ p', sys.step (.toClient i) = .ok { sys with peers := sys.peers.set i p' } ∧
      Inv ports inits { sys with peers := sys.peers.set i p' } ∧
      Kept sys { sys with peers := sys.peers.set i p' } ∧ p'.node.opNum = p.node.opNum := by
  have hmem : p ∈ sys.peers := mem_of_getElem? hp
  obtain ⟨x, hx, hlast⟩ := h.static.msgs p hmem argv (by simp [hdown])
  obtain ⟨ℓ, Ω, Z, hkey⟩ := h.keys x hx
  obtain ⟨G, hpeer⟩ := hkey.peers i p hp
  obtain ⟨hmaster, hro, hup⟩ := h.static.clients p hmem
  have hchan : chanOf x.1 p .r = argv :: rest.filter (hasKey x.1) := by
    rw [chanOf, hdown, filter_hasKey_cons hlast]
  obtain ⟨n', V', A, he, hframe, hnum', hend, hlink', hext, hkept⟩ :=
    remoteProc_spec hpeer.link hpeer.client hchan
  have hexec : { p with down := rest }.exec (masterClient argv) =
      .ok { p with node := n', down := rest } := by
    simp only [Peer.exec, call, controlAlg, hmaster, masterClient, if_true, he, ok_bind, propagate,
      hframe.masterhost, hframe.slaveRo, hro]
    rfl
  have hset := h.set hc hx hp { p with node := n', down := rest }
    ⟨G.L.receive .r A, update G.V .r V', G.nums⟩ hframe
    (by rw [hnum']) ?_ ?_ hkey hpeer ?_ ?_
  · refine ⟨_, ?_, hset.1, hset.2, hnum'⟩
    rw [System.step, hp]
    simp [hdown, hexec]
  · intro k hk
    exact chanOf_congr rfl (by rw [hdown, filter_hasKey_cons_of_ne hlast hk])
  · intro argv' hargv
    refine h.static.msgs p hmem _ ?_
    simp only [hdown, mem_append, mem_cons] at hargv ⊢
    rcases hargv with hargv | hargv
    · exact .inl hargv
    · exact .inr (.inr hargv)
  · exact hpeer.receive hframe.port hnum' hend hlink' hext
  simp only [update_self]
  exact hkept

end UfsRedis
