import UfsRedis.Protocol.Everywhere
import UfsRedis.Protocol.Steps

/-!
# What a client forwards

A local operation is executed and recorded in `controlAlg`; whether its command is sent to the
server is decided later, in `call`, by the flags of the call, by `slave-read-only` and by the state
of the link. `processCommand` and `execCommand` call with `CMD_CALL_FULL`. A script calls without
`CMD_CALL_PROPAGATE`, unless it has asked for the replication of its commands.

* `Sender`: a client with the commands queued to the server and the local operations it has
  executed;
* `Sender.step_queued`: what one step adds to both;
* `forwarded_iff`: over a whole run, the commands of all executed operations are queued, once and in
  order, iff each was executed by a call that propagates, with `slave-read-only no` and the link up.
-/

namespace UfsRedis

open Lib List

/-- What happens at a client: a command of a user, of a script or of the server, or a change of
`slave-read-only` or of the link to the server. -/
inductive ClientEvent where
  | user (argv : List Sds)
  /-- `luaRedisGenericCommand`. The flags of its call have `CMD_CALL_PROPAGATE_REPL` if `repl`:
  after `redis.replicate_commands()`, unless `redis.set_repl` has excluded the slaves. -/
  | script (repl : Bool) (argv : List Sds)
  | master (argv : List Sds)
  | slaveRo (ro : Bool)
  | link (up : Bool)
  deriving DecidableEq

/-- A local operation that was executed: the node before it, whether the flags of the call have
`CMD_CALL_PROPAGATE_REPL`, and the rewritten command. -/
structure Executed where
  node : Node
  repl : Bool
  argv : List Sds
  deriving DecidableEq

/-- A client: its node, the commands queued to the server, and the local operations that it has
executed. -/
structure Sender where
  node : Node
  queued : List (List Sds)
  executed : List Executed
  deriving DecidableEq

/-- `call` for a local command. `flag_ufs` is set by the execution of an operation. -/
def Sender.localCall (s : Sender) (repl : Bool) (argv : List Sds) : Except Fault Sender := do
  let (n, o, dests) ← call controlAlg s.node (userClient argv)
  .ok { node := n
        queued := s.queued ++ List.replicate (if repl then dests.count .master else 0) o.argv
        executed := if o.flagUfs then s.executed ++ [⟨s.node, repl, o.argv⟩] else s.executed }

def Sender.step (s : Sender) : ClientEvent → Except Fault Sender
  | .user argv => s.localCall true argv
  | .script repl argv => s.localCall repl argv
  | .master argv => do
    let (n, o, dests) ← call controlAlg s.node (masterClient argv)
    .ok { s with node := n, queued := s.queued ++ List.replicate (dests.count .master) o.argv }
  | .slaveRo ro => .ok { s with node := { s.node with slaveRo := ro } }
  | .link up => .ok { s with node := { s.node with masterUp := up } }

def Sender.run (s : Sender) (events : List ClientEvent) : Except Fault Sender :=
  events.foldlM Sender.step s

/-- The node forwards local operations: `slave-read-only no`, and the link is up. -/
def Node.Forwards (n : Node) : Prop := n.slaveRo = false ∧ n.masterUp = true

instance (n : Node) : Decidable n.Forwards := inferInstanceAs (Decidable (_ ∧ _))

/-- The call propagates, and its node forwards. -/
def Executed.Forwards (x : Executed) : Prop := x.repl = true ∧ x.node.Forwards

instance (x : Executed) : Decidable x.Forwards := inferInstanceAs (Decidable (_ ∧ _))

/-- The configuration of two nodes is the same. -/
structure Node.SameConfig (n n' : Node) : Prop where
  masterhost : n'.masterhost = n.masterhost
  slaveRo : n'.slaveRo = n.slaveRo
  masterUp : n'.masterUp = n.masterUp

section

variable {n n' : Node} {argv : List Sds} {o : Outcome} {s s' : Sender} {e : ClientEvent}

theorem localExec_config (h : localExec n argv = .ok (n', executed)) : n.SameConfig n' := by
  obtain ⟨-, key, -, -, ⟨op, g, g', -, -, -, -, rfl, -⟩ | ⟨-, -, rfl, -⟩⟩ := localExec_cases h <;>
    exact ⟨rfl, rfl, rfl⟩

theorem localProc_config (h : localProc n argv = .ok (n', o)) : n.SameConfig n' := by
  obtain ⟨key, cv, -, -, ⟨e, -, rfl, -⟩ | ⟨-, oids, oid, op, n1, g, V, hstep⟩⟩ := localProc_cases h
  · exact ⟨rfl, rfl, rfl⟩
  obtain ⟨h1, h2, h3⟩ := localExec_config hstep.exec
  rw [hstep.node]
  exact ⟨h1, h2, h3⟩

theorem remoteProc_config (h : remoteProc n argv = .ok (n', o)) : n.SameConfig n' := by
  obtain ⟨key, cv, a1, a2, oid, ctx, name, cop, V, u, oids, v, e, g, g', -, -, -, -, -, -, -, -, -, -,
    rfl, -⟩ := remoteProc_cases h
  exact ⟨rfl, rfl, rfl⟩

theorem controlAlg_config (hm : n.masterhost = true)
    (h : controlAlg n c = .ok (n', o)) : n.SameConfig n' := by
  rw [controlAlg, if_pos hm] at h
  split at h
  · exact remoteProc_config h
  · exact localProc_config h

/-- `call` at a client, for a command of a user: the command goes to the server, once, if the
operation was executed at a node that forwards. -/
theorem call_user (hm : n.masterhost = true)
    (h : call controlAlg n (userClient argv) = .ok (n', o, dests)) : n.SameConfig n' ∧
      dests.count .master = if o.flagUfs ∧ n.Forwards then 1 else 0 := by
  obtain ⟨hproc, rfl⟩ := call_eq_ok.mp h
  have hsame := controlAlg_config hm hproc
  refine ⟨hsame, ?_⟩
  rw [propagate, hsame.masterhost, hsame.slaveRo, replicationFeedMaster, hsame.masterUp,
    replicationFeedSlaves, hsame.masterhost]
  cases o.flagUfs <;> cases hr : n.slaveRo <;> cases hu : n.masterUp <;>
    simp [hm, userClient, Node.Forwards, hr, hu]

theorem call_master (hm : n.masterhost = true)
    (h : call controlAlg n (masterClient argv) = .ok (n', o, dests)) : n.SameConfig n' ∧
      dests.count .master = 0 := by
  obtain ⟨hproc, rfl⟩ := call_eq_ok.mp h
  have hsame := controlAlg_config hm hproc
  refine ⟨hsame, ?_⟩
  rw [propagate, hsame.masterhost, hsame.slaveRo, replicationFeedSlaves, hsame.masterhost]
  cases o.flagUfs <;> cases n.slaveRo <;> simp [hm, masterClient]

/-- The commands of the operations that were forwarded when they were executed. -/
def Sender.forwarded (s : Sender) : List (List Sds) :=
  (s.executed.filter (·.Forwards)).map Executed.argv

/-- A local command is queued if its operation is executed and forwarded. -/
theorem Sender.localCall_queued {repl : Bool} (hm : s.node.masterhost = true)
    (h : s.localCall repl argv = .ok s') :
    s'.node.masterhost = true ∧ (s.queued = s.forwarded → s'.queued = s'.forwarded) := by
  rw [localCall, bind_eq_ok] at h
  obtain ⟨⟨n, o, dests⟩, hcall, heq⟩ := h
  simp only [Except.ok.injEq] at heq
  subst heq
  obtain ⟨hsame, hcount⟩ := call_user hm hcall
  refine ⟨hsame.masterhost.trans hm, fun hq => ?_⟩
  simp only [hcount, hq, Sender.forwarded]
  by_cases hf : o.flagUfs
  · cases repl <;> by_cases hn : s.node.Forwards <;> simp [hf, hn, Executed.Forwards]
  · simp [hf]

/-- One step queues the command of the operation it executes, if it is forwarded, and nothing
else. -/
theorem Sender.step_queued (hm : s.node.masterhost = true) (h : s.step e = .ok s') :
    s'.node.masterhost = true ∧ (s.queued = s.forwarded → s'.queued = s'.forwarded) := by
  cases e with
  | user argv => exact localCall_queued hm h
  | script repl argv => exact localCall_queued hm h
  | master argv =>
    rw [Sender.step, bind_eq_ok] at h
    obtain ⟨⟨n, o, dests⟩, hcall, heq⟩ := h
    simp only [Except.ok.injEq] at heq
    subst heq
    obtain ⟨hsame, hcount⟩ := call_master hm hcall
    refine ⟨hsame.masterhost.trans hm, fun hq => ?_⟩
    rw [hcount, replicate_zero, append_nil]
    exact hq
  | slaveRo ro =>
    cases h
    exact ⟨hm, id⟩
  | link up =>
    cases h
    exact ⟨hm, id⟩

theorem Sender.run_queued (hm : s.node.masterhost = true)
    (hq : s.queued = s.forwarded) (h : s.run events = .ok s') : s'.queued = s'.forwarded := by
  refine (foldlM_ok (P := fun s : Sender => s.node.masterhost = true ∧ s.queued = s.forwarded)
    ⟨hm, hq⟩ (fun s e _ s' hs hstep => ?_) h).2
  obtain ⟨hm', hkeep⟩ := Sender.step_queued hs.1 hstep
  exact ⟨hm', hkeep hs.2⟩

/-- All commands are among the forwarded ones iff every operation was forwarded. -/
theorem Sender.forwarded_eq_iff :
    s.forwarded = s.executed.map Executed.argv ↔ ∀ x ∈ s.executed, x.Forwards := by
  constructor
  · intro h
    have hlen := congrArg List.length h
    rw [Sender.forwarded, length_map, length_map] at hlen
    simpa using length_filter_eq_length_iff.mp hlen
  intro h
  rw [Sender.forwarded, filter_eq_self.mpr (by simpa using h)]

/-- **No operation is lost iff** every local operation is executed by a call that propagates, with
`slave-read-only no` and the link up: then the commands of all executed operations are queued to the
server, each once, in the order of their execution. -/
theorem forwarded_iff {n : Node} (hm : n.masterhost = true) {events : List ClientEvent}
    (h : Sender.run ⟨n, [], []⟩ events = .ok s) : s.queued = s.executed.map Executed.argv ↔
      ∀ x ∈ s.executed, x.repl = true ∧ x.node.slaveRo = false ∧ x.node.masterUp = true := by
  have hq := Sender.run_queued (s := ⟨n, [], []⟩) hm rfl h
  rw [hq]
  exact Sender.forwarded_eq_iff

end

/-- The client of the examples: it has the key `k` with the class `{a, b}`. -/
def demoClient : Except Fault Node := initNode [(['k'], ['a', ',', 'b'])] (freshClient 6380)

def splitThenUnion : List (List Sds) :=
  [[splitCmd, ['a'], ['k']], [unionCmd, ['a'], ['b'], ['k']]]

/-- With `slave-read-only no` and the link up, both commands are queued. -/
theorem forwarded_iff_split_union : ∃ n, demoClient = .ok n ∧ n.masterhost = true ∧
    ∃ s, Sender.run ⟨n, [], []⟩ (splitThenUnion.map .user) = .ok s ∧ s.executed.length = 2 ∧
      s.queued = s.executed.map Executed.argv := by
  refine exists_ok_imp (P := fun n => n.masterhost = true ∧ ∃ s,
    Sender.run ⟨n, [], []⟩ (splitThenUnion.map .user) = .ok s ∧ s.executed.length = 2 ∧
      ∀ x ∈ s.executed, x.repl = true ∧ x.node.slaveRo = false ∧ x.node.masterUp = true)
    (by decide +kernel) ?_
  rintro n - ⟨hm, s, hs, hlen, hall⟩
  exact ⟨hm, s, hs, hlen, (forwarded_iff hm hs).mpr hall⟩

/-- With the link down, again with `slave-read-only yes`, and again from a script, two splits
and a union are executed and recorded as a `ledge`, and nothing is queued. -/
theorem operations_lost : ∃ n, demoClient = .ok n ∧
    ∃ s, Sender.run ⟨n, [], []⟩ [.link false, .user [splitCmd, ['a'], ['k']], .link true,
        .slaveRo true, .user [unionCmd, ['a'], ['b'], ['k']], .slaveRo false,
        .script false [splitCmd, ['a'], ['k']]] = .ok s ∧
      s.executed.length = 3 ∧ s.queued = [] ∧
      ((s.node.cspacelist.getD []).map fun cv => cv.vertices.map fun v => v.ledge.map (·.op)) =
        [[some (splitOp ['a']), some (unionOp ['a'] ['b']), some (splitOp ['a']), none]] := by
  decide +kernel

end UfsRedis
