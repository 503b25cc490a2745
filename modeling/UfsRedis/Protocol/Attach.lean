import UfsRedis.Protocol.Queries
import UfsRedis.Protocol.Uinit

/-!
# Clients that come and go

The server makes state spaces in `uinitCommand` only: one for each client that is attached at that
moment. Attaching a client makes none, detaching it removes none, and no operation does either.
-/

namespace UfsRedis

open List Lib

/-- What happens at the server: a client is attached (`syncCommand`) or freed, or a connection sends
`uinit`, or `union` or `split`. -/
inductive ServerEvent where
  | attach (s : Slave)
  | detach (id : Nat)
  | uinit (c : Client)
  | op (c : Client)
  deriving DecidableEq

/-- The arguments of the commands have no NUL byte, and `uinit` has its number of arguments. -/
def ServerEvent.ArgsOk : ServerEvent → Prop
  | .uinit c => UinitArgs c.argv
  | .op c => ∀ a ∈ c.argv, NulFree a
  | _ => True

def ServerEvent.slaves (l : List Slave) : ServerEvent → List Slave
  | .attach s => l ++ [s]
  | .detach id => l.filter (·.id ≠ id)
  | .uinit _ => l
  | .op _ => l

def Node.serverStep (n : Node) : ServerEvent → Except Fault Node
  | .attach s => .ok { n with slaves := ServerEvent.slaves n.slaves (.attach s) }
  | .detach id => .ok { n with slaves := ServerEvent.slaves n.slaves (.detach id) }
  | .uinit c => do
    let (n, _, _) ← call uinitCommand n c
    .ok n
  | .op c => do
    let (n, _, _) ← call controlAlg n c
    .ok n

def Node.serverRun (n : Node) (events : List ServerEvent) : Except Fault Node :=
  events.foldlM Node.serverStep n

/-- How many state spaces an event makes for a port and a key, with the clients `l` attached. -/
def ServerEvent.creates (port : Nat) (key : Sds) (l : List Slave) : ServerEvent → Nat
  | .uinit c => if c.uinitKey = key then l.countP (·.port = port) else 0
  | .attach _ => 0
  | .detach _ => 0
  | .op _ => 0

/-- How many state spaces the events make for a port and a key, from the clients `l` on. -/
def created (port : Nat) (key : Sds) : List Slave → List ServerEvent → Nat
  | _, [] => 0
  | l, e :: es => e.creates port key l + created port key (e.slaves l) es

section

variable {n n' : Node} {c : Client} {o : Outcome} {e : ServerEvent} {events : List ServerEvent}
  {port : Nat} {key : Sds}

theorem spaceIds_serverProc (h : serverProc n c = .ok (n', o)) : n'.spaceIds = n.spaceIds := by
  obtain ⟨a1, a2, oid, ctx, key, sv, name, V, u, oids, v, e, l, spaces, -, -, -, -, -, -, -, hl,
    hspaces, -, rfl, -, -⟩ := serverProc_cases h
  rw [Node.spaceIds, Node.spaceIds, hl, Option.getD_some, Option.getD_some]
  have hfed := map_forall₂ (h := fun s : Verlist => (s.id, s.key)) (k := fun s => (s.id, s.key))
    (forall₂_of_mapM hspaces) fun s s' hs => by
      obtain ⟨hid, hk⟩ := feedSpace_keeps hs
      rw [hid, hk]
  refine hfed.trans ?_
  exact map_updateFirst (h := fun s : Verlist => (s.id, s.key)) fun _ => rfl

theorem controlAlg_server (hm : n.masterhost = false) (h : controlAlg n c = .ok (n', o)) :
    n'.masterhost = false ∧ n'.slaves = n.slaves ∧ n'.spaceIds = n.spaceIds := by
  rw [controlAlg, if_neg (by simp [hm])] at h
  have hids := spaceIds_serverProc h
  obtain ⟨spaces, rfl⟩ := serverProc_frame h
  exact ⟨hm, rfl, hids⟩

theorem UinitAdds.count_spaceIds {k} (h : UinitAdds n k n') (hm : n.masterhost = false) :
    n'.spaceIds.count (port, key) = n.spaceIds.count (port, key) +
      if k = key then n.slaves.countP (·.port = port) else 0 := by
  rw [h.spaces, hm, if_neg Bool.false_ne_true, count_append, Nat.add_left_cancel_iff,
    List.count, countP_map]
  split
  · rename_i hk
    refine countP_congr fun s _ => ?_
    simp [hk]
  rename_i hk
  rw [countP_eq_zero]
  intro s _
  simp [hk]

theorem count_spaceIds_step (port : Nat) (key : Sds) (hm : n.masterhost = false)
    (he : ∀ c, e = .uinit c → c.argv.length = 3) (h : n.serverStep e = .ok n') :
    n'.masterhost = false ∧ n'.slaves = e.slaves n.slaves ∧
      n'.spaceIds.count (port, key) = n.spaceIds.count (port, key) + e.creates port key n.slaves := by
  cases e with
  | attach s =>
    cases h
    exact ⟨hm, rfl, rfl⟩
  | detach id =>
    cases h
    exact ⟨hm, rfl, rfl⟩
  | uinit c =>
    simp only [Node.serverStep, bind_eq_ok, Except.ok.injEq] at h
    obtain ⟨⟨m, o, dests⟩, hcall, rfl⟩ := h
    obtain ⟨hproc, -⟩ := call_eq_ok.mp hcall
    obtain ⟨m', o', hproc', hadds⟩ := uinitCommand_spec n (he c rfl)
    rw [hproc, Except.ok.injEq, Prod.mk.injEq] at hproc'
    rw [hproc'.1]
    exact ⟨hadds.masterhost.trans hm, hadds.slaves, hadds.count_spaceIds hm⟩
  | op c =>
    simp only [Node.serverStep, bind_eq_ok, Except.ok.injEq] at h
    obtain ⟨⟨m, o, dests⟩, hcall, rfl⟩ := h
    obtain ⟨hm', hslaves, hids⟩ := controlAlg_server hm (call_eq_ok.mp hcall).1
    exact ⟨hm', hslaves, by rw [hids]; rfl⟩

theorem count_spaceIds_run (hm : n.masterhost = false)
    (he : ∀ c, .uinit c ∈ events → c.argv.length = 3) (h : n.serverRun events = .ok n') :
    n'.spaceIds.count (port, key) =
      n.spaceIds.count (port, key) + created port key n.slaves events := by
  induction events generalizing n with
  | nil =>
    cases h
    rfl
  | cons e events ih =>
    rw [Node.serverRun, foldlM_cons, bind_eq_ok] at h
    obtain ⟨n1, hstep, hrun⟩ := h
    obtain ⟨hm1, hslaves, hcount⟩ := count_spaceIds_step port key hm
      (fun c hc => he c (hc ▸ mem_cons_self)) hstep
    rw [ih hm1 (fun c hc => he c (mem_cons_of_mem e hc)) hrun, hslaves, hcount, created,
      Nat.add_assoc]

theorem exists_locateVerlist (h : (port, key) ∈ n.spaceIds) :
    ∃ v, locateVerlist n port key = .ok (some v) := by
  obtain ⟨s, hs, heq⟩ := mem_map.mp h
  obtain ⟨rfl, rfl⟩ := Prod.mk.inj heq
  rcases hl : n.sspacelist with _ | l
  · rw [hl] at hs
    exact absurd hs not_mem_nil
  rw [hl, Option.getD_some] at hs
  have hsome : (l.find? fun v => v.id = s.id ∧ v.key = s.key).isSome := by
    rw [find?_isSome]
    exact ⟨s, hs, by simp⟩
  obtain ⟨v, hv⟩ := Option.isSome_iff_exists.mp hsome
  exact ⟨v, by rw [locateVerlist, hl, deref_some, ok_bind, hv]⟩

/-- **The state space of a client and a key.** After any sequence of attached and detached clients,
`uinit` commands and operations, the server has exactly one for a port and a key, and finds it, iff
the `uinit` commands of the key have met exactly one attached client with the port. -/
theorem one_space_iff (he : ∀ e ∈ events, e.ArgsOk)
    (h : (freshServer []).serverRun events = .ok n) (port : Nat) (key : Sds) :
    (n.spaceIds.count (port, key) = 1 ∧ ∃ v, locateVerlist n port key = .ok (some v)) ↔
      created port key [] events = 1 := by
  have hcount : n.spaceIds.count (port, key) = created port key [] events := by
    rw [count_spaceIds_run rfl (fun c hc => (he _ hc).1) h]
    exact Nat.zero_add _
  rw [hcount, and_iff_left_iff_imp]
  intro h1
  refine exists_locateVerlist (count_pos_iff.mp ?_)
  rw [hcount, h1]
  exact Nat.one_pos

end

/-- Two clients and a `uinit`. -/
def attachDemo : List ServerEvent :=
  [.attach ⟨0, 6380, false⟩, .attach ⟨1, 6381, false⟩,
    .uinit (userClient [uinitCmd, ['k'], ['a', ',', 'b']])]

theorem one_space_iff_attached : ∃ n, (freshServer []).serverRun attachDemo = .ok n ∧
    n.spaceIds.count (6380, ['k']) = 1 ∧ ∃ v, locateVerlist n 6380 ['k'] = .ok (some v) := by
  refine exists_ok_imp (P := fun _ => True) (by decide +kernel) fun n hn _ =>
    (one_space_iff (fun e he => ?_) hn 6380 ['k']).mpr (by decide)
  simp only [attachDemo, mem_cons, not_mem_nil, or_false] at he
  rcases he with rfl | rfl | rfl
  · trivial
  · trivial
  show UinitArgs _
  decide

/-- A client that is attached after `uinit` has no state space, and its first operation reads
`NULL`; after a second `uinit` of the key a client has two. -/
theorem no_space_or_two :
    (∃ n, (freshServer []).serverRun [.uinit (userClient [uinitCmd, ['k'], ['a', ',', 'b']]),
        .attach ⟨0, 6380, false⟩] = .ok n ∧ n.keys = [['k']] ∧
      locateVerlist n 6380 ['k'] = .ok none ∧
      controlAlg n (slaveClient 0 6380 (encode ['k'] (splitOp ['a']) ['1'] initOids)) =
        .error .nullDeref) ∧ ∃ n, (freshServer []).serverRun [.attach ⟨0, 6380, false⟩,
        .uinit (userClient [uinitCmd, ['k'], ['a']]), .uinit (userClient [uinitCmd, ['k'], ['a']])] =
          .ok n ∧ n.spaceIds = [(6380, ['k']), (6380, ['k'])] := by
  decide +kernel

end UfsRedis
