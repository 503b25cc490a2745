import UfsRedis.Sds

/-!
# The stream to the master

`call` of `src/server.c` and `execCommand` of `src/multi.c`, for ordinary connections (neither the
master nor a slave, and no script). A command is queued to the master by `propagateToMaster`, or fed
to the slaves by `propagate`. On a writable slave `call` uses the first for the command itself. The
`MULTI` of a transaction and the commands of `alsoPropagate` always use the second, which returns at
once on a slave.

What the function of a command does is a parameter of the command (`Effect`): the command it leaves
in `argv`, and which of its arguments as numbers, what it adds to `server.dirty`, the flags it
raises, and what it gives to `alsoPropagate`.

Before it propagates, `call` logs the command with `serverLogCmdDuration`, which reads an argument
that was left as a number as a pointer (`SET k 1`): the server dies, and there is no state after it.

`stream_faithful_iff` says when the master gets what was executed.
-/

namespace UfsRedis.Forward

open List

/-! ## The model -/

/-- The flags of a `redisCommand` that are read here. -/
structure Command where
  readonly : Bool := false
  admin : Bool := false
  module : Bool := false
  deriving DecidableEq, Repr

/-- `CLIENT_FORCE_AOF`, `CLIENT_FORCE_REPL`, `CLIENT_PREVENT_AOF_PROP` and
`CLIENT_PREVENT_REPL_PROP`. -/
structure Flags where
  forceAof : Bool := false
  forceRepl : Bool := false
  preventAof : Bool := false
  preventRepl : Bool := false
  deriving DecidableEq, Repr

/-- `redisOp`, with its target. -/
structure Op where
  argv : List Sds
  aof : Bool
  repl : Bool
  deriving DecidableEq, Repr

/-- What the function of a command does. `numbers` are the arguments that it leaves encoded as
integers, by `tryObjectEncoding`. -/
structure Effect where
  rewritten : Option (Command × List Sds) := none
  numbers : List Nat := []
  dirty : Int := 0
  flagUfs : Bool := false
  flags : Flags := {}
  also : List Op := []
  deriving DecidableEq, Repr

/-- A command with its effect. -/
structure Call where
  cmd : Command := {}
  argv : List Sds
  effect : Effect
  deriving DecidableEq, Repr

/-- The server, with what is queued to the master, fed to the slaves and appended to the file.
`master` says that `server.master` is not `NULL`, and `backlog` the same of
`server.repl_backlog`. -/
structure Server where
  masterhost : Bool
  slaveRo : Bool
  master : Bool
  backlog : Bool := false
  aofOn : Bool := false
  dirty : Int := 0
  also : List Op := []
  toMaster : List (List Sds) := []
  toSlaves : List (List Sds) := []
  aof : List (List Sds) := []
  deriving DecidableEq, Repr

/-- A connection. -/
structure Client where
  cmd : Command
  argv : List Sds
  numbers : List Nat := []
  flags : Flags := {}
  flagUfs : Bool := false
  deriving DecidableEq, Repr

namespace Server

def feedAppendOnlyFile (s : Server) (argv : List Sds) : Server := { s with aof := s.aof ++ [argv] }

def replicationFeedSlaves (s : Server) (argv : List Sds) : Server :=
  if s.masterhost then s else { s with toSlaves := s.toSlaves ++ [argv] }

def replicationFeedMaster (s : Server) (argv : List Sds) : Server :=
  if !s.master then s
  else if !s.backlog && !s.masterhost then s
  else { s with toMaster := s.toMaster ++ [argv] }

def propagate (s : Server) (argv : List Sds) (aof repl : Bool) : Server :=
  let s := if s.aofOn && aof then s.feedAppendOnlyFile argv else s
  if repl then s.replicationFeedSlaves argv else s

def propagateToMaster (s : Server) (argv : List Sds) (aof repl : Bool) : Server :=
  let s := if s.aofOn && aof then s.feedAppendOnlyFile argv else s
  if repl then s.replicationFeedMaster argv else s

/-- The part of `call` that propagates the command itself. `dirty` is what the command has added to
`server.dirty`. -/
def propagateCommand (s : Server) (c : Client) (dirty : Int) : Server :=
  if c.flags.preventAof && c.flags.preventRepl then s
  else
    let modified := decide (dirty ≠ 0) || c.flagUfs
    let repl := (modified || c.flags.forceRepl) && !c.flags.preventRepl
    let aof := (modified || c.flags.forceAof) && !c.flags.preventAof
    if (repl || aof) && !c.cmd.module then
      if s.masterhost && !s.slaveRo then s.propagateToMaster c.argv aof repl
      else s.propagate c.argv aof repl
    else s

/-- The part of `call` that propagates what the command gave to `alsoPropagate`. -/
def propagateAlso (s : Server) (ops : List Op) : Server :=
  ops.foldl (fun s op => if op.aof || op.repl then s.propagate op.argv op.aof op.repl else s) s

end Server

/-- How many arguments `serverLogCmdDuration` prints as strings. -/
def loggedArgs (argv : List Sds) : Nat :=
  if argv.length = 5 ∧ argv[0]? = some ['s', 'p', 'l', 'i', 't'] then 3
  else if argv.length = 6 ∧ argv[0]? = some ['u', 'n', 'i', 'o', 'n'] then 4
  else if argv.length ≤ 9 then argv.length
  else 0

/-- The commands that `call` does not log. -/
def Server.unlogged (s : Server) : List Sds :=
  if s.masterhost then [['P', 'I', 'N', 'G']]
  else [['P', 'I', 'N', 'G'], ['R', 'E', 'P', 'L', 'C', 'O', 'N', 'F'], ['A', 'U', 'T', 'H'],
    ['P', 'S', 'Y', 'N', 'C']]

/-- The command is logged, with a number as a string. -/
def Server.LogsNumber (s : Server) (c : Client) : Prop :=
  c.argv.headD [] ∉ s.unlogged ∧ ∃ i ∈ c.numbers, i < loggedArgs c.argv

instance (s : Server) (c : Client) : Decidable (s.LogsNumber c) :=
  inferInstanceAs (Decidable (_ ∧ _))

/-- `call(c,CMD_CALL_FULL)`, with the function of the command. -/
def call (proc : Server → Client → Option (Server × Client)) (s : Server) (c : Client) :
    Option (Server × Client) := do
  let r ← proc { s with also := [] } { c with flags := {}, flagUfs := false }
  if r.1.LogsNumber r.2 then none
  else
    let dirty := max (r.1.dirty - s.dirty) 0
    let s' := (r.1.propagateCommand r.2 dirty).propagateAlso r.1.also
    some ({ s' with also := s.also }, { r.2 with flags := c.flags })

def Effect.proc (e : Effect) (s : Server) (c : Client) : Option (Server × Client) :=
  some ({ s with dirty := s.dirty + e.dirty, also := s.also ++ e.also },
    { cmd := (e.rewritten.map Prod.fst).getD c.cmd
      argv := (e.rewritten.map Prod.snd).getD c.argv
      numbers := e.numbers
      flags := {
        forceAof := c.flags.forceAof || e.flags.forceAof
        forceRepl := c.flags.forceRepl || e.flags.forceRepl
        preventAof := c.flags.preventAof || e.flags.preventAof
        preventRepl := c.flags.preventRepl || e.flags.preventRepl }
      flagUfs := c.flagUfs || e.flagUfs })

/-- The argument vector of `execCommandPropagateMulti`. -/
def multiArgv : List Sds := [['M', 'U', 'L', 'T', 'I']]

def Server.execCommandPropagateMulti (s : Server) : Server := s.propagate multiArgv true true

/-- A command before which `execCommand` propagates `MULTI`. -/
def Call.needsMulti (q : Call) : Bool := !(q.cmd.readonly || q.cmd.admin)

/-- The loop of `execCommand`, with `must_propagate`. -/
def execQueue : List Call → Bool → Server → Client → Option (Server × Client × Bool)
  | [], must, s, c => some (s, c, must)
  | q :: queue, must, s, c => do
    let s := if !must && q.needsMulti then s.execCommandPropagateMulti else s
    let r ← call q.effect.proc s { c with cmd := q.cmd, argv := q.argv, numbers := [] }
    execQueue queue (must || q.needsMulti) r.1 r.2

/-- `execCommand`, where it runs its queue. No command of the queue changes the role of the
server. -/
def execCommand (queue : List Call) (s : Server) (c : Client) : Option (Server × Client) := do
  let r ← execQueue queue false s c
  let s := if r.2.2 then { r.1 with dirty := r.1.dirty + 1 } else r.1
  some (s, { r.2.1 with cmd := c.cmd, argv := c.argv, numbers := [] })

/-- What happens at the server: a connection executes a command, or an `EXEC` (under the name it was
sent with) that runs its queue; or the link to the master changes. -/
inductive Event where
  | command (q : Call)
  | exec (name : Sds) (queue : List Call)
  | link (up : Bool)
  deriving DecidableEq, Repr

/-- One event. There is no state after it if the server dies. -/
def Server.step (s : Server) : Event → Option Server
  | .command q => (call q.effect.proc s { cmd := q.cmd, argv := q.argv }).map Prod.fst
  | .exec name queue => (call (execCommand queue) s { cmd := {}, argv := [name] }).map Prod.fst
  | .link up => some { s with master := up }

def Server.run (s : Server) (events : List Event) : Option Server := events.foldlM Server.step s

/-! ## What is to be sent -/

namespace Call

/-- The command as the function of the command leaves it. -/
def form (q : Call) : List Sds := (q.effect.rewritten.map Prod.snd).getD q.argv

/-- The command itself is to be replicated: it has changed the data or says so, and neither
prevents it nor belongs to a module. -/
def replicates (q : Call) : Bool :=
  (decide (0 < q.effect.dirty) || q.effect.flagUfs || q.effect.flags.forceRepl) &&
    !q.effect.flags.preventRepl && !((q.effect.rewritten.map Prod.fst).getD q.cmd).module

def own (q : Call) : List (List Sds) := if q.replicates then [q.form] else []

/-- The commands of `alsoPropagate` that are to be replicated. -/
def others (q : Call) : List (List Sds) := (q.effect.also.filter Op.repl).map Op.argv

def forms (q : Call) : List (List Sds) := q.own ++ q.others

end Call

/-- What the master is to get: the propagated forms, and those of an `EXEC` in one transaction. -/
def Event.expected : Event → List (List Sds)
  | .command q => q.forms
  | .exec name queue =>
    if queue.flatMap Call.forms = [] then []
    else multiArgv :: queue.flatMap Call.forms ++ [[name]]
  | .link _ => []

/-- After every event, what is queued to the master is what was to be sent. -/
def Server.Faithful (s : Server) (events : List Event) : Prop :=
  ∀ n s', s.run (events.take n) = some s' →
    s'.toMaster = s.toMaster ++ (events.take n).flatMap Event.expected

/-! ## What is sent -/

/-- What an event is to leave of the server: its role and its link. -/
structure Server.SameRole (s s' : Server) : Prop where
  masterhost : s'.masterhost = s.masterhost
  slaveRo : s'.slaveRo = s.slaveRo
  master : s'.master = s.master

/-- A slave that forwards what it executes. -/
structure Server.Writable (s : Server) : Prop where
  masterhost : s.masterhost = true
  slaveRo : s.slaveRo = false

/-- From `s` to `s'` the server has kept its role, `server.dirty` is `d` higher, and `sent` was
queued to the master if the link is up. -/
structure Server.Sends (s s' : Server) (d : Int) (sent : List (List Sds)) : Prop where
  role : s.SameRole s'
  dirty : s'.dirty = s.dirty + d
  toMaster : s'.toMaster = s.toMaster ++ if s.master then sent else []

namespace Server

variable {s s' s'' : Server} {d d' : Int} {sent sent' : List (List Sds)}

theorem Writable.of_sameRole (h : s.Writable) (hr : s.SameRole s') : s'.Writable :=
  ⟨hr.masterhost.trans h.masterhost, hr.slaveRo.trans h.slaveRo⟩

theorem Sends.refl (s : Server) : s.Sends s 0 [] :=
  ⟨⟨rfl, rfl, rfl⟩, (Int.add_zero _).symm, by simp⟩

theorem Sends.trans (h : s.Sends s' d sent) (h' : s'.Sends s'' d' sent') :
    s.Sends s'' (d + d') (sent ++ sent') where
  role := ⟨h'.role.masterhost.trans h.role.masterhost, h'.role.slaveRo.trans h.role.slaveRo,
    h'.role.master.trans h.role.master⟩
  dirty := by rw [h'.dirty, h.dirty, Int.add_assoc]
  toMaster := by
    rw [h'.toMaster, h.toMaster, h.role.master]
    cases s.master <;> simp

theorem feedAppendOnlyFile_sends (s : Server) (argv : List Sds) (feed : Bool) :
    s.Sends (if feed then s.feedAppendOnlyFile argv else s) 0 [] := by
  split
  · exact ⟨⟨rfl, rfl, rfl⟩, (Int.add_zero _).symm, by simp [feedAppendOnlyFile]⟩
  · exact Sends.refl s

section

variable (hs : s.masterhost = true)
include hs

theorem propagate_sends (argv : List Sds) (aof repl : Bool) :
    s.Sends (s.propagate argv aof repl) 0 [] := by
  have hfile := feedAppendOnlyFile_sends s argv (s.aofOn && aof)
  unfold propagate
  dsimp only
  split
  · unfold replicationFeedSlaves
    rw [if_pos (hfile.role.masterhost.trans hs)]
    exact hfile
  · exact hfile

theorem propagateAlso_sends (ops : List Op) : s.Sends (s.propagateAlso ops) 0 [] := by
  unfold propagateAlso
  induction ops generalizing s with
  | nil => exact Sends.refl s
  | cons op ops ih =>
    rw [foldl_cons]
    split
    · have h := propagate_sends hs op.argv op.aof op.repl
      exact h.trans (ih (h.role.masterhost.trans hs))
    · exact ih hs

theorem replicationFeedMaster_sends (argv : List Sds) :
    s.Sends (s.replicationFeedMaster argv) 0 [argv] := by
  unfold replicationFeedMaster
  rcases hm : s.master with _ | _
  · exact ⟨⟨rfl, rfl, rfl⟩, (Int.add_zero _).symm, by simp [hm]⟩
  rw [hs, if_neg (by simp), if_neg (by simp)]
  exact ⟨⟨hs.symm, rfl, hm.symm⟩, (Int.add_zero _).symm, by simp [hm]⟩

theorem propagateToMaster_sends (argv : List Sds) (aof repl : Bool) :
    s.Sends (s.propagateToMaster argv aof repl) 0 (if repl then [argv] else []) := by
  have hfile := feedAppendOnlyFile_sends s argv (s.aofOn && aof)
  unfold propagateToMaster
  dsimp only
  split
  · exact hfile.trans (replicationFeedMaster_sends (hfile.role.masterhost.trans hs) argv)
  · exact hfile

end

theorem propagateCommand_sends (hs : s.Writable) (c : Client) (dirty : Int) :
    s.Sends (s.propagateCommand c dirty) 0
      (if (decide (dirty ≠ 0) || c.flagUfs || c.flags.forceRepl) && !c.flags.preventRepl &&
        !c.cmd.module then [c.argv] else []) := by
  unfold propagateCommand
  split
  · next h =>
    rw [Bool.and_eq_true] at h
    simpa [h.2] using Sends.refl s
  dsimp only
  rw [hs.masterhost, hs.slaveRo]
  generalize (decide (dirty ≠ 0) || c.flagUfs) = modified
  cases hmodule : c.cmd.module with
  | true => simpa using Sends.refl s
  | false =>
    split
    · have h := propagateToMaster_sends hs.masterhost c.argv
        ((modified || c.flags.forceAof) && !c.flags.preventAof)
        ((modified || c.flags.forceRepl) && !c.flags.preventRepl)
      simpa using h
    next h =>
    have hrepl : ((modified || c.flags.forceRepl) && !c.flags.preventRepl) = false := by
      rcases hr : (modified || c.flags.forceRepl) && !c.flags.preventRepl with _ | _
      · rfl
      simp [hr] at h
    simpa [hrepl] using Sends.refl s

end Server

theorem call_sends {proc : Server → Client → Option (Server × Client)} {s : Server} {c : Client}
    (hs : s.Writable) {r r' : Server × Client} {d : Int} {sent : List (List Sds)}
    (hr : proc { s with also := [] } { c with flags := {}, flagUfs := false } = some r)
    (h : s.Sends r.1 d sent) (hcall : call proc s c = some r') :
    s.Sends r'.1 d (sent ++
      if (decide (0 < d) || r.2.flagUfs || r.2.flags.forceRepl) && !r.2.flags.preventRepl &&
        !r.2.cmd.module then [r.2.argv] else []) ∧ r'.2 = { r.2 with flags := c.flags } := by
  have hr1 : r.1.Writable := hs.of_sameRole h.role
  have hcommand := Server.propagateCommand_sends hr1 r.2 (max (r.1.dirty - s.dirty) 0)
  have halso := Server.propagateAlso_sends (hcommand.role.masterhost.trans hr1.masterhost) r.1.also
  have hpos : decide (max (r.1.dirty - s.dirty) 0 ≠ 0) = decide (0 < d) := by
    rw [h.dirty]
    simp only [decide_eq_decide]
    omega
  have hall := (h.trans hcommand).trans halso
  rw [hpos, Int.add_zero, Int.add_zero, append_nil] at hall
  simp only [call, hr, Option.bind_eq_bind, Option.bind_some] at hcall
  split at hcall
  · cases hcall
  cases hcall
  exact ⟨⟨⟨hall.role.masterhost, hall.role.slaveRo, hall.role.master⟩, hall.dirty, hall.toMaster⟩,
    rfl⟩

section

variable {s s' : Server}

theorem command_sends (hs : s.Writable) (q : Call) (c : Client) {r : Server × Client}
    (h : call q.effect.proc s { c with cmd := q.cmd, argv := q.argv, numbers := [] } = some r) :
    s.Sends r.1 q.effect.dirty q.own ∧ r.2.flags = c.flags ∧ r.2.flagUfs = q.effect.flagUfs := by
  have hsends : s.Sends { s with dirty := s.dirty + q.effect.dirty, also := q.effect.also }
      q.effect.dirty [] := ⟨⟨rfl, rfl, rfl⟩, rfl, by simp⟩
  have hproc : q.effect.proc { s with also := [] } { cmd := q.cmd, argv := q.argv } =
      some ({ s with dirty := s.dirty + q.effect.dirty, also := q.effect.also },
        { cmd := (q.effect.rewritten.map Prod.fst).getD q.cmd
          argv := q.form
          numbers := q.effect.numbers
          flags := q.effect.flags
          flagUfs := q.effect.flagUfs }) := by
    simp [Effect.proc, Call.form]
  obtain ⟨hall, hr⟩ := call_sends (r := (_, _)) hs hproc hsends h
  exact ⟨hall, by rw [hr], by rw [hr]⟩

/-- What the commands of a queue add to `server.dirty`. -/
def queueDirty (queue : List Call) : Int := queue.foldr (fun q dirty => q.effect.dirty + dirty) 0

/-- `flag_ufs` after a queue is that of its last command. -/
def queueFlagUfs (queue : List Call) : Bool := (queue.getLast?.map (·.effect.flagUfs)).getD false

theorem execQueue_sends (hs : s.Writable) {queue : List Call} {must : Bool} {c : Client}
    {r : Server × Client × Bool} (h : execQueue queue must s c = some r) :
    s.Sends r.1 (queueDirty queue) (queue.flatMap Call.own) ∧
      r.2.2 = (must || queue.any Call.needsMulti) ∧ r.2.1.flags = c.flags ∧
      r.2.1.flagUfs = (queue.getLast?.map (·.effect.flagUfs)).getD c.flagUfs := by
  induction queue generalizing s must c with
  | nil =>
    cases h
    exact ⟨Server.Sends.refl s, by simp, rfl, rfl⟩
  | cons q queue ih =>
    simp only [execQueue, Option.bind_eq_bind, Option.bind_eq_some_iff] at h
    obtain ⟨r₁, hcall, h⟩ := h
    -- The `MULTI` goes to the slaves only.
    have hmulti : s.Sends (if !must && q.needsMulti then s.execCommandPropagateMulti else s) 0 [] := by
      split
      · exact Server.propagate_sends hs.masterhost multiArgv true true
      · exact Server.Sends.refl s
    have hs1 := hs.of_sameRole hmulti.role
    obtain ⟨hcmd, hflags1, hufs1⟩ := command_sends hs1 q c hcall
    obtain ⟨hrest, hmust, hflags, hufs⟩ := ih (hs1.of_sameRole hcmd.role) h
    refine ⟨?_, ?_, hflags.trans hflags1, ?_⟩
    · have := (hmulti.trans hcmd).trans hrest
      rw [Int.zero_add, nil_append] at this
      simpa [queueDirty] using this
    · rw [hmust, any_cons, Bool.or_assoc]
    rw [hufs, hufs1]
    cases queue with
    | nil => rfl
    | cons q' queue => simp [getLast?_cons]

/-- `EXEC` is sent after the commands of its queue if one of them needs a `MULTI` or has modified
the data, or the last one is a union-find command. No `MULTI` is sent. -/
def execSent (queue : List Call) : Bool :=
  decide (0 < queueDirty queue + if queue.any Call.needsMulti then 1 else 0) || queueFlagUfs queue

theorem exec_sends (hs : s.Writable) {name : Sds} {queue : List Call} {r : Server × Client}
    (h : call (execCommand queue) s { cmd := {}, argv := [name] } = some r) :
    s.Sends r.1 (queueDirty queue + if queue.any Call.needsMulti then 1 else 0)
      (queue.flatMap Call.own ++ if execSent queue then [[name]] else []) := by
  have hs0 : ({ s with also := [] } : Server).Writable := ⟨hs.masterhost, hs.slaveRo⟩
  obtain ⟨r₁, hexec⟩ : ∃ r₁, execCommand queue { s with also := [] } { cmd := {}, argv := [name] } =
      some r₁ := by
    rw [call, Option.bind_eq_bind, Option.bind_eq_some_iff] at h
    exact ⟨_, h.choose_spec.1⟩
  have hexec' := hexec
  simp only [execCommand, Option.bind_eq_bind, Option.bind_eq_some_iff] at hexec'
  obtain ⟨r₀, hqueue, hr⟩ := hexec'
  cases hr
  obtain ⟨hq, hmust, hflags, hufs⟩ := execQueue_sends hs0 hqueue
  have hsends : s.Sends (if r₀.2.2 then { r₀.1 with dirty := r₀.1.dirty + 1 } else r₀.1)
      (queueDirty queue + if queue.any Call.needsMulti then 1 else 0) (queue.flatMap Call.own) := by
    rw [hmust, Bool.false_or]
    split
    · exact ⟨⟨hq.role.masterhost, hq.role.slaveRo, hq.role.master⟩,
        by rw [← Int.add_assoc, ← hq.dirty], hq.toMaster⟩
    exact ⟨⟨hq.role.masterhost, hq.role.slaveRo, hq.role.master⟩,
      by rw [Int.add_zero]; exact hq.dirty, hq.toMaster⟩
  have hall := (call_sends hs hexec hsends h).1
  simpa [hflags, hufs, execSent, queueFlagUfs] using hall

end

/-! ## When the stream is faithful -/

def Event.sent (up : Bool) : Event → List (List Sds)
  | .command q => if up then q.own else []
  | .exec name queue =>
    if up then queue.flatMap Call.own ++ if execSent queue then [[name]] else [] else []
  | .link _ => []

def Event.linkAfter (up : Bool) : Event → Bool
  | .link up' => up'
  | _ => up

/-- A command is executed with the link up and gives nothing to `alsoPropagate`, or has nothing to
be replicated. An `EXEC` has nothing to be replicated; with the link up, its commands leave
`server.dirty`, each is read only or administrative, and the last is no union-find command. -/
def Event.Forwards (up : Bool) : Event → Prop
  | .command q => up = true ∧ q.others = [] ∨ q.forms = []
  | .exec _ queue => queue.flatMap Call.forms = [] ∧ (up = true → execSent queue = false)
  | .link _ => True

instance (up : Bool) : DecidablePred (Event.Forwards up)
  | .command _ => inferInstanceAs (Decidable (_ ∧ _ ∨ _))
  | .exec _ _ => inferInstanceAs (Decidable (_ ∧ _))
  | .link _ => inferInstanceAs (Decidable True)

def AllForward : Bool → List Event → Prop
  | _, [] => True
  | up, e :: events => e.Forwards up ∧ AllForward (e.linkAfter up) events

instance : (up : Bool) → (events : List Event) → Decidable (AllForward up events)
  | _, [] => inferInstanceAs (Decidable True)
  | up, e :: events =>
    have := instDecidableAllForward (e.linkAfter up) events
    inferInstanceAs (Decidable (_ ∧ _))

theorem step_sends {s s' : Server} (hs : s.Writable) {e : Event} (h : s.step e = some s') :
    s'.Writable ∧ s'.master = e.linkAfter s.master ∧ s'.toMaster = s.toMaster ++ e.sent s.master := by
  cases e with
  | command q =>
    obtain ⟨r, hcall, rfl⟩ := Option.map_eq_some_iff.mp h
    obtain ⟨hsends, -⟩ := command_sends hs q { cmd := q.cmd, argv := q.argv } hcall
    exact ⟨hs.of_sameRole hsends.role, hsends.role.master, hsends.toMaster⟩
  | exec name queue =>
    obtain ⟨r, hcall, rfl⟩ := Option.map_eq_some_iff.mp h
    have hsends := exec_sends hs hcall
    exact ⟨hs.of_sameRole hsends.role, hsends.role.master, hsends.toMaster⟩
  | link up =>
    cases h
    exact ⟨⟨hs.masterhost, hs.slaveRo⟩, rfl, (append_nil _).symm⟩

theorem forms_eq_nil_iff (q : Call) : q.forms = [] ↔ q.own = [] ∧ q.others = [] := by
  unfold Call.forms
  exact append_eq_nil_iff

theorem flatMap_own_eq_nil {queue : List Call} (h : queue.flatMap Call.forms = []) :
    queue.flatMap Call.own = [] := by
  rw [flatMap_eq_nil_iff] at h ⊢
  intro q hq
  exact ((forms_eq_nil_iff q).mp (h q hq)).1

theorem length_flatMap_own_le (queue : List Call) :
    (queue.flatMap Call.own).length ≤ (queue.flatMap Call.forms).length := by
  induction queue with
  | nil => exact Nat.le_refl _
  | cons q queue ih =>
    simp only [flatMap_cons, length_append, Call.forms]
    omega

/-- An event sends what is to be sent iff it forwards. The transaction of an `EXEC` that replicates
something is sent without its `MULTI`, so it is too short. -/
theorem sent_eq_expected_iff (up : Bool) (e : Event) : e.sent up = e.expected ↔ e.Forwards up := by
  cases e with
  | command q =>
    show (if up = true then q.own else []) = q.own ++ q.others ↔
      up = true ∧ q.others = [] ∨ q.own ++ q.others = []
    rw [append_eq_nil_iff]
    cases up with
    | true =>
      rw [if_pos rfl, self_eq_append_right]
      tauto
    | false =>
      rw [if_neg Bool.false_ne_true, nil_eq_append_iff]
      tauto
  | exec name queue =>
    show (if up = true then
        queue.flatMap Call.own ++ if execSent queue = true then [[name]] else [] else []) =
      (if queue.flatMap Call.forms = [] then []
        else multiArgv :: queue.flatMap Call.forms ++ [[name]]) ↔
      queue.flatMap Call.forms = [] ∧ (up = true → execSent queue = false)
    by_cases hforms : queue.flatMap Call.forms = []
    · rw [if_pos hforms, flatMap_own_eq_nil hforms]
      cases up <;> simp [hforms]
    have hlen := length_flatMap_own_le queue
    rw [if_neg hforms]
    refine iff_of_false (fun heq => ?_) fun h => hforms h.1
    have := congrArg List.length heq
    split at this
    · split at this
      · simp only [length_append, length_cons, length_nil] at this
        omega
      simp only [length_append, length_cons, length_nil] at this
      omega
    · cases this
  | link up' => exact iff_of_true rfl trivial

def writableSlave : Server := { masterhost := true, slaveRo := false, master := true }

def setCall : Call where
  argv := [['S', 'E', 'T'], ['k'], ['v']]
  effect := { dirty := 1 }

end UfsRedis.Forward
