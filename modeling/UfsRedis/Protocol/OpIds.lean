import UfsRedis.Protocol.Everywhere
import UfsRedis.Protocol.Steps

/-!
# The `oid`s of a run

A client counts its operations in `op_num`, and calls them by `createOid` after its port and their
number.
-/

namespace UfsRedis

open List

/-- A command of a user reaches `op_num++`. -/
def acceptsLocal (n : Node) (argv : List Sds) : Bool :=
  match (do
    let key ← keyArg argv
    let _ ← deref (← locateCVerlist n key)
    checkArgv n argv) with
  | .ok none => n.masterhost
  | _ => false

/-- The operation that a step makes: the port of its client and its number. -/
def System.made (sys : System) : Event → Option (Nat × Nat)
  | .user i argv =>
    match sys.peers[i]? with
    | some p => if acceptsLocal p.node argv then some (p.node.port, p.node.opNum + 1) else none
    | none => none
  | .toServer _ => none
  | .toClient _ => none

/-- The operations that a run makes, up to a step that fails. -/
def System.madeIn : System → List Event → List (Nat × Nat)
  | _, [] => []
  | sys, e :: events =>
    (sys.made e).toList ++
      match sys.step e with
      | .ok sys' => sys'.madeIn events
      | .error _ => []

/-- The `oid`s of the operations can be built, and are different. -/
def OidsUnique (ops : List (Nat × Nat)) : Prop :=
  (∀ x ∈ ops, ∃ oid, createOid x.1 x.2 = .ok oid) ∧
    ops.Pairwise fun x y => createOid x.1 x.2 ≠ createOid y.1 y.2

def System.counters (sys : System) : List (Nat × Nat) :=
  sys.peers.map fun p => (p.node.port, p.node.opNum)

/-! ## One step -/

section

variable {n n' : Node} {c : Client} {o : Outcome} {argv : List Sds} {executed : Bool}
  {sys sys' : System} {e : Event}

theorem localExec_counter (h : localExec n argv = .ok (n', executed)) :
    n'.port = n.port ∧ n'.opNum = n.opNum := by
  obtain ⟨name, key, -, -, ⟨op, g, g', -, -, -, -, rfl, -⟩ | ⟨-, -, rfl, -⟩⟩ := localExec_cases h <;>
    exact ⟨rfl, rfl⟩

theorem localProc_counter (hm : n.masterhost = true) (h : localProc n argv = .ok (n', o)) :
    n'.port = n.port ∧ n'.opNum = n.opNum + if acceptsLocal n argv then 1 else 0 := by
  obtain ⟨key, cv, hkey, hcv, hcases⟩ := localProc_cases h
  have haccept : ∀ r, checkArgv n argv = .ok r → acceptsLocal n argv = decide (r = none) := by
    intro r hr
    rw [acceptsLocal, hkey, ok_bind, Node.locateCVerlist_eq hcv, ok_bind, deref_some, ok_bind, hr]
    obtain _ | e := r
    · simp [hm]
    simp
  rcases hcases with ⟨e, hcheck, rfl, -⟩ | ⟨hcheck, oids, oid, op, n1, g, V, hstep⟩
  · rw [haccept _ hcheck]
    exact ⟨rfl, by simp⟩
  obtain ⟨hport, hnum⟩ := localExec_counter hstep.exec
  rw [haccept _ hcheck, hstep.node]
  exact ⟨hport, by simpa [setCVertices] using hnum⟩

theorem controlAlg_counter (hc : n.masterhost = true → c.master = true)
    (h : controlAlg n c = .ok (n', o)) : n'.port = n.port ∧ n'.opNum = n.opNum := by
  rw [controlAlg] at h
  split at h
  · next hm =>
    rw [if_pos (hc hm)] at h
    obtain ⟨_, _, _, _, _, _, _, _, _, _, _, _, _, _, _, -, -, -, -, -, -, -, -, -, -, rfl, -⟩ :=
      remoteProc_cases h
    exact ⟨rfl, rfl⟩
  obtain ⟨_, _, _, _, _, _, _, _, _, _, _, _, _, _, -, -, -, -, -, -, -, -, -, -, rfl, -, -⟩ :=
    serverProc_cases h
  exact ⟨rfl, rfl⟩

theorem controlAlg_user_counter (h : controlAlg n (userClient argv) = .ok (n', o)) :
    n'.port = n.port ∧ n'.opNum = n.opNum + if acceptsLocal n argv then 1 else 0 := by
  by_cases hm : n.masterhost = true
  · rw [controlAlg, if_pos hm, if_neg (by simp [userClient])] at h
    exact localProc_counter hm h
  have hno : acceptsLocal n argv = false := by
    rw [Bool.not_eq_true] at hm
    rw [acceptsLocal, hm]
    split <;> rfl
  rw [hno]
  exact controlAlg_counter (fun hm' => absurd hm' hm) h

theorem counters_feedPeers (dests : List Dest) (argv : List Sds) (peers : List Peer) :
    (feedPeers dests argv peers).map (fun p => (p.node.port, p.node.opNum)) =
      peers.map fun p => (p.node.port, p.node.opNum) := by
  refine ext_getElem (by simp [feedPeers]) fun j h1 h2 => ?_
  simp only [feedPeers, getElem_map, getElem_mapIdx]
  split <;> rfl

theorem set_of_getElem? {α : Type} {l : List α} {i : Nat} {a : α} (h : l[i]? = some a) :
    l.set i a = l := by
  obtain ⟨hi, rfl⟩ := List.getElem?_eq_some_iff.mp h
  exact set_getElem_self hi

theorem counters_set_eq {peers : List Peer} {i : Nat} {p p' : Peer} (hp : peers[i]? = some p)
    (h : p'.node.port = p.node.port ∧ p'.node.opNum = p.node.opNum) :
    (peers.set i p').map (fun p => (p.node.port, p.node.opNum)) =
      peers.map fun p => (p.node.port, p.node.opNum) := by
  rw [map_set, h.1, h.2]
  exact set_of_getElem? (by simp [hp])

/-- **A step makes at most one operation**, and changes its counter only. -/
theorem System.counters_step (h : sys.step e = .ok sys') :
    (sys.made e = none ∧ sys'.counters = sys.counters) ∨
      ∃ i port num, sys.counters[i]? = some (port, num) ∧ sys.made e = some (port, num + 1) ∧
        sys'.counters = sys.counters.set i (port, num + 1) := by
  cases e with
  | user i argv =>
    rcases hp : sys.peers[i]? with _ | p
    · rw [System.step, hp] at h
      cases h
      exact .inl ⟨by simp [System.made, hp], rfl⟩
    simp only [System.step, hp, Peer.exec, bind_eq_ok, Except.ok.injEq] at h
    obtain ⟨p', ⟨⟨n, o, dests⟩, hcall, rfl⟩, rfl⟩ := h
    obtain ⟨hport, hnum⟩ := controlAlg_user_counter (call_eq_ok.mp hcall).1
    by_cases ha : acceptsLocal p.node argv = true
    · refine .inr ⟨i, p.node.port, p.node.opNum, ?_, ?_, ?_⟩
      · rw [System.counters, getElem?_map, hp]
        rfl
      · simp [System.made, hp, ha]
      rw [ha, if_pos rfl] at hnum
      rw [System.counters, System.counters, map_set, hport, hnum]
    rw [if_neg ha, Nat.add_zero] at hnum
    exact .inl ⟨by simp [System.made, hp, ha], counters_set_eq hp ⟨hport, hnum⟩⟩
  | toServer i =>
    rw [System.step_eq_stepBy] at h
    cases System.StepBy.of_ok h with
    | idle => exact .inl ⟨rfl, rfl⟩
    | toServer hp hup hproc =>
      exact .inl ⟨rfl, (counters_feedPeers _ _ _).trans (counters_set_eq hp ⟨rfl, rfl⟩)⟩
  | toClient i =>
    rw [System.step_eq_stepBy] at h
    cases System.StepBy.of_ok h with
    | idle => exact .inl ⟨rfl, rfl⟩
    | toClient hp hdown hproc =>
      exact .inl ⟨rfl, counters_set_eq hp (controlAlg_counter (fun _ => rfl) hproc)⟩

theorem System.made_spec {x : Nat × Nat} (h : sys.made e = some x) :
    ∃ c ∈ sys.counters, x = (c.1, c.2 + 1) := by
  cases e with
  | user i argv =>
    rw [System.made] at h
    split at h
    · next p hp =>
      split at h
      · cases h
        exact ⟨_, mem_map_of_mem (mem_of_getElem? hp), rfl⟩
      · cases h
    · cases h
  | toServer i => cases h
  | toClient i => cases h

end

/-! ## Runs -/

variable {sys : System} {events : List Event}

/-- **The numbers of a client grow along a run**, and its first operation has the next number. -/
theorem System.madeIn_spec (hnd : (sys.counters.map Prod.fst).Nodup) :
    (∀ x ∈ sys.madeIn events, ∃ c ∈ sys.counters, x.1 = c.1 ∧ c.2 < x.2 ∧
      (c.1, c.2 + 1) ∈ sys.madeIn events) ∧
      (sys.madeIn events).Pairwise fun x y => x.1 = y.1 → x.2 < y.2 := by
  induction events generalizing sys with
  | nil => exact ⟨by simp [System.madeIn], .nil⟩
  | cons e events ih =>
    rw [System.madeIn]
    rcases hstep : sys.step e with f | sys'
    · rcases hmade : sys.made e with _ | x
      · simp
      obtain ⟨c, hc, rfl⟩ := System.made_spec hmade
      simp only [Option.toList_some, append_nil, mem_singleton, forall_eq,
        pairwise_singleton, and_true]
      exact ⟨c, hc, rfl, Nat.lt_succ_self _, rfl⟩
    rcases System.counters_step hstep with ⟨hmade, hsame⟩ | ⟨i, port, num, hi, hmade, hset⟩
    · have hnd' : (sys'.counters.map Prod.fst).Nodup := by rwa [hsame]
      have hrest := ih hnd'
      rw [hsame] at hrest
      simpa [hmade] using hrest
    -- the ports stay, so the client of the operation is the only one with its port
    have hports : sys'.counters.map Prod.fst = sys.counters.map Prod.fst := by
      rw [hset, map_set]
      exact set_of_getElem? (by simp [hi])
    have hnd' : (sys'.counters.map Prod.fst).Nodup := by rwa [hports]
    obtain ⟨hmem, hpair⟩ := ih hnd'
    simp only [hmade, Option.toList_some, singleton_append]
    have hnew : (port, num + 1) ∈ sys'.counters := by
      rw [hset]
      exact mem_set (List.getElem?_eq_some_iff.mp hi).1 _
    refine ⟨fun x hx => ?_, pairwise_cons.mpr ⟨fun x hx hport => ?_, hpair⟩⟩
    · rcases mem_cons.mp hx with rfl | hx
      · exact ⟨_, mem_of_getElem? hi, rfl, Nat.lt_succ_self _, by simp⟩
      obtain ⟨c, hc, hcx, hlt, hfirst⟩ := hmem x hx
      rw [hset] at hc
      rcases mem_or_eq_of_mem_set hc with hc | rfl
      · exact ⟨c, hc, hcx, hlt, by simp [hfirst]⟩
      · exact ⟨_, mem_of_getElem? hi, hcx, by simp only at hlt ⊢; omega, by simp⟩
    obtain ⟨c, hc, hcx, hlt, -⟩ := hmem x hx
    have hceq : c = (port, num + 1) :=
      inj_on_of_nodup_map hnd' hc hnew (hcx.symm.trans hport.symm)
    rwa [hceq] at hlt

/-- **The `oid`s of a run are unique** iff the buffers of `createOid` are large enough for every
operation (ports up to 16378, up to 9999 operations of a client), and at most one client with a port
up to 6379 makes operations: what `itos` writes for its port is empty. -/
theorem oids_unique_iff (hnd : (sys.counters.map Prod.fst).Nodup)
    (hzero : ∀ c ∈ sys.counters, c.2 = 0) : OidsUnique (sys.madeIn events) ↔
      (∀ x ∈ sys.madeIn events, x.1 ≤ 16378 ∧ x.2 ≤ 9999) ∧
        ∀ x ∈ sys.madeIn events, ∀ y ∈ sys.madeIn events, x.1 ≤ 6379 → y.1 ≤ 6379 → x.1 = y.1 := by
  obtain ⟨hmem, hpair⟩ := @System.madeIn_spec sys events hnd
  -- every client that makes operations makes one with number 1
  have hfirst : ∀ x ∈ sys.madeIn events, (x.1, 1) ∈ sys.madeIn events := by
    intro x hx
    obtain ⟨c, hc, hcx, -, h1⟩ := hmem x hx
    rwa [hzero c hc, ← hcx] at h1
  constructor
  · rintro ⟨hok, hne⟩
    have hfit : ∀ x ∈ sys.madeIn events, x.1 ≤ 16378 ∧ x.2 ≤ 9999 := by
      intro x hx
      obtain ⟨oid, hoid⟩ := hok x hx
      obtain ⟨hp, hn, -⟩ := createOid_eq_ok.mp hoid
      exact ⟨hp, hn⟩
    refine ⟨hfit, fun x hx y hy hx6 hy6 => ?_⟩
    by_contra hxy
    have : Std.Symm fun x y : Nat × Nat => createOid x.1 x.2 ≠ createOid y.1 y.2 :=
      ⟨fun _ _ h => h.symm⟩
    refine hne.forall (hfirst x hx) (hfirst y hy) (fun h => hxy (Prod.mk.inj h).1) ?_
    simp only
    rw [createOid_eq (hfit x hx).1 (by decide), createOid_eq (hfit y hy).1 (by decide)]
    exact congrArg _ ((opText_eq_iff (x := (x.1, 1)) (y := (y.1, 1))).mpr ⟨.inr ⟨hx6, hy6⟩, rfl⟩)
  rintro ⟨hfit, hlow⟩
  refine ⟨fun x hx => ⟨_, createOid_eq (hfit x hx).1 (hfit x hx).2⟩, ?_⟩
  refine hpair.imp_of_mem fun {x y} hx hy hlt heq => ?_
  rw [createOid_eq (hfit x hx).1 (hfit x hx).2, createOid_eq (hfit y hy).1 (hfit y hy).2,
    Except.ok.injEq] at heq
  obtain ⟨hport, hnum⟩ := opText_eq_iff.mp (show opText x = opText y from heq)
  have := hlt (hport.elim id fun h6 => hlow x hx y hy h6.1 h6.2)
  omega

/-- Two clients, on ports 6379 and 6380, that make one operation each. -/
theorem oids_unique_iff_two_ports : ∃ sys,
    System.boot [6379, 6380] [(['k'], ['a', ',', 'b'])] = .ok sys ∧
    sys.madeIn [.user 0 [splitCmd, ['a'], ['k']], .user 1 [splitCmd, ['a'], ['k']]] =
      [(6379, 1), (6380, 1)] ∧
    OidsUnique (sys.madeIn [.user 0 [splitCmd, ['a'], ['k']], .user 1 [splitCmd, ['a'], ['k']]]) := by
  refine exists_ok_imp (P := fun sys => sys.counters = [(6379, 0), (6380, 0)] ∧
    sys.madeIn [.user 0 [splitCmd, ['a'], ['k']], .user 1 [splitCmd, ['a'], ['k']]] =
      [(6379, 1), (6380, 1)]) (by decide +kernel) ?_
  rintro sys - ⟨hcounters, hmade⟩
  refine ⟨hmade, (oids_unique_iff ?_ ?_).mpr ?_⟩
  · rw [hcounters]
    decide
  · rw [hcounters]
    decide
  rw [hmade]
  decide

/-- With ports 6378 and 6379 the first operations of both clients are called `_1`. -/
theorem oids_not_unique : ∃ sys, System.boot [6378, 6379] [(['k'], ['a', ',', 'b'])] = .ok sys ∧
    sys.madeIn [.user 0 [splitCmd, ['a'], ['k']], .user 1 [splitCmd, ['a'], ['k']]] =
      [(6378, 1), (6379, 1)] ∧
    createOid 6378 1 = .ok ['_', '1'] ∧ createOid 6379 1 = .ok ['_', '1'] ∧
    ¬ OidsUnique (sys.madeIn [.user 0 [splitCmd, ['a'], ['k']],
      .user 1 [splitCmd, ['a'], ['k']]]) := by
  refine exists_ok_imp (P := fun sys => sys.madeIn [.user 0 [splitCmd, ['a'], ['k']],
    .user 1 [splitCmd, ['a'], ['k']]] = [(6378, 1), (6379, 1)]) (by decide +kernel) ?_
  intro sys _ hmade
  refine ⟨hmade, by decide, by decide, fun h => ?_⟩
  rw [hmade] at h
  exact absurd h.2 (by decide)

end UfsRedis
