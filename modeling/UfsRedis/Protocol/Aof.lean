import UfsRedis.Protocol.Initialise
import UfsRedis.Protocol.LocalCommand
import UfsRedis.Protocol.Resp

/-!
# The append only file

`call` appends a command that has been executed to the append only file, with its arguments as they
have been rewritten; a client does not append what comes from the server. After a restart a fake
client executes the file.
-/

namespace UfsRedis

open List Option

def Command.proc (n : Node) (c : Client) : Command → Except Fault (Node × Outcome)
  | .find => do
    let _ ← findCommand n c.argv
    .ok (n, ⟨c.argv, false, none⟩)
  | .umembers => do
    let _ ← umembersCommand n c.argv
    .ok (n, ⟨c.argv, false, none⟩)
  | .union => controlAlg n c
  | .split => controlAlg n c
  | .uinit => uinitCommand n c

/-! ## Writing -/

/-- The append only file, and `aof_selected_db`. -/
structure AofFile where
  buf : List Char
  selectedDb : Option Nat

def selectCmd : Sds := ['S', 'E', 'L', 'E', 'C', 'T']

def feedAppendOnlyFile (f : AofFile) (dictid : Nat) (argv : List Sds) : AofFile where
  buf := f.buf ++
    ((if f.selectedDb = some dictid then [] else resp [selectCmd, ll2string dictid]) ++ resp argv)
  selectedDb := some dictid

/-- `call` reaches one of the functions that append the command: not for a command of the server at
a client that is not read-only. -/
def Node.feedsAof (n : Node) (c : Client) : Bool := !(n.masterhost && !n.slaveRo && c.master)

/-- A node and its file. `saved` is the node when the last command was appended. -/
structure Store where
  node : Node
  file : AofFile
  saved : Node

/-- A command on a connection that has selected the database `dictid`, or a change of the links. -/
inductive StoreEvent where
  | command (c : Client) (dictid : Nat)
  | links (slaves : List Slave) (masterUp : Bool)

namespace Store

/-- A command, and what `call` does with the file. -/
def call (s : Store) (cmd : Command) (c : Client) (dictid : Nat) : Except Fault Store := do
  let (n, o) ← cmd.proc s.node c
  if o.flagUfs && n.feedsAof c then .ok ⟨n, feedAppendOnlyFile s.file dictid o.argv, n⟩
  else .ok { s with node := n }

def step (s : Store) : StoreEvent → Except Fault Store
  | .command c dictid =>
    match dispatch c.argv with
    | none => .ok s
    | some cmd => s.call cmd c dictid
  | .links slaves masterUp =>
    .ok { s with node := { s.node with slaves := slaves, masterUp := masterUp } }

def run (s : Store) (events : List StoreEvent) : Except Fault Store := events.foldlM step s

def start (n : Node) : Store := ⟨n, ⟨[], none⟩, n⟩

end Store

/-! ## Reading -/

/-- The fake client. Its `id` and `slave_listening_port` are not set: they are what its memory
holds. -/
def fakeClient (id port : Nat) (argv : List Sds) : Client := ⟨argv, false, false, id, port⟩

/-- How the loading of a file ends early: with a fault, or with `exit(1)`. -/
inductive Stop where
  | fault (f : Fault)
  | exit
  deriving DecidableEq

section

variable (id port : Nat)

def replayCommand (n : Node) (argv : List Sds) : Except Stop Node :=
  if (argv.headD []).map Char.toLower = selectCmd.map Char.toLower then .ok n
  else
    match lookupCommand (argv.headD []) with
    | none => .error .exit
    | some (cmd, _) =>
      match cmd.proc n (fakeClient id port argv) with
      | .ok (n, _) => .ok n
      | .error f => .error (.fault f)

/-- The loop of `loadAppendOnlyFile`. -/
def loadLoop : Nat → Node → List Char → Except Stop Node
  | 0, n, s => if s = [] then .ok n else .error (.fault .noFuel)
  | fuel + 1, n, s =>
    if s = [] then .ok n
    else
      match readCommand s with
      | none => .error .exit
      | some (argv, s) => do loadLoop fuel (← replayCommand id port n argv) s

def loadAppendOnlyFile (n : Node) (file : List Char) : Except Stop Node :=
  loadLoop id port file.length n file

variable {id port}
variable {cmds : List (List Sds)}

theorem loadLoop_flatMap (hcmds : ∀ argv ∈ cmds, argv ≠ [])
    (hfuel : cmds.length ≤ fuel) (n : Node) :
    loadLoop id port fuel n (cmds.flatMap resp) = cmds.foldlM (replayCommand id port) n := by
  induction cmds generalizing fuel n with
  | nil => cases fuel <;> rfl
  | cons argv cmds ih =>
    rw [length_cons] at hfuel
    obtain ⟨fuel, rfl⟩ : ∃ k, fuel = k + 1 := ⟨fuel - 1, by omega⟩
    have hne : resp argv ++ cmds.flatMap resp ≠ [] := by simp [resp_ne_nil]
    have hread := readCommand_resp (s := cmds.flatMap resp) (hcmds argv (by simp))
    rw [flatMap_cons, loadLoop, if_neg hne, hread, foldlM_cons]
    exact congrArg _ (funext fun n' => ih (fun a ha => hcmds a (by simp [ha])) (by omega) n')

theorem loadAppendOnlyFile_flatMap (hcmds : ∀ argv ∈ cmds, argv ≠ [])
    (n : Node) : loadAppendOnlyFile id port n (cmds.flatMap resp) =
      cmds.foldlM (replayCommand id port) n :=
  loadLoop_flatMap hcmds (length_le_flatMap_resp cmds) n

end

variable {n n' : Node} {c : Client} {o : Outcome} {argv : List Sds} {id port : Nat} {cmd : Command}
  {s s' : Store} {events : List StoreEvent}

/-! ## Commands on the graphs -/

/-- The graphs after a `uinit`. -/
structure UinitGraphs (n : Node) (argv : List Sds) (g : CudGraph) (n' : Node) (o : Outcome) :
    Prop where
  graph : ∀ k, n'.graph k = (n.graph k).or (if uinitKey argv = k then some g else none)
  cver : n.masterhost = true → ∀ k, (n'.cver k).isSome → (n.cver k).isSome ∨ uinitKey argv = k
  masterhost : n'.masterhost = n.masterhost
  slaveRo : n'.slaveRo = n.slaveRo
  rejected : o.flagUfs = false → n.masterhost = true ∧ (n.cver (uinitKey argv)).isSome
  sent : o.argv = argv

theorem uinitCommand_graphs (hargv : argv.length = 3) :
    ∃ g, ∀ n c, c.argv = argv → ∃ n' o, uinitCommand n c = .ok (n', o) ∧
      UinitGraphs n argv g n' o := by
  obtain ⟨name, key, S, rfl⟩ := length_eq_three.mp hargv
  obtain ⟨g, hg, hkey⟩ := exists_uinitGraph key S
  refine ⟨g, fun n c hc => ?_⟩
  have hgraph : ∀ n' : Node, n'.ufslist = some (n.ufslist.getD [] ++ [g]) → ∀ k,
      n'.graph k = (n.graph k).or (if key = k then some g else none) := by
    intro n' hn' k
    rw [Node.graph_concat n' hn', hkey]
  by_cases hold : n.masterhost = true ∧ ∃ v ∈ n.cspacelist.getD [], v.key = key
  · refine ⟨_, _, uinitCommand_existing hc hg hold.1 hold.2, hgraph _ rfl, fun _ k h => .inl h, rfl,
      rfl, fun _ => ⟨hold.1, ?_⟩, hc⟩
    by_contra hnone
    rw [Bool.not_eq_true, isSome_eq_false_iff, isNone_iff_eq_none] at hnone
    obtain ⟨v, hv, hvk⟩ := hold.2
    exact Node.cver_eq_none.mp hnone v hv hvk
  refine ⟨_, _, uinitCommand_eq hc hg hkey fun hm v hv hvk => hold ⟨hm, v, hv, hvk⟩, hgraph _ rfl,
    fun hm k h => ?_, rfl, rfl, fun h => absurd h (by simp), hc⟩
  rw [Node.cver_addUfs hm, isSome_or, Bool.or_eq_true] at h
  refine h.imp_right fun h => ?_
  by_contra hne
  rw [if_neg (by rw [hkey]; exact hne)] at h
  simp at h

/-- A command that does not change what `graph` and `cver` find. -/
structure SameTables (n n' : Node) : Prop where
  graph : ∀ k, n'.graph k = n.graph k
  cver : ∀ k, (n'.cver k).isSome → (n.cver k).isSome
  masterhost : n'.masterhost = n.masterhost
  slaveRo : n'.slaveRo = n.slaveRo

theorem SameTables.refl (n : Node) : SameTables n n := ⟨fun _ => rfl, fun _ h => h, rfl, rfl⟩

theorem localProc_sameTables (h : localProc n argv = .ok (n', o)) (hflag : o.flagUfs = false) :
    SameTables n n' := by
  obtain ⟨key, cv, -, hcv, hcase⟩ := localProc_cases h
  rcases hcase with ⟨e, -, rfl, rfl⟩ | ⟨-, oids, oid, op, n1, g, V, hstep⟩
  · exact .refl _
  have hexec := hstep.exec
  rw [hflag] at hexec
  obtain ⟨name, k, -, -, hcase⟩ := localExec_cases hexec
  rcases hcase with ⟨op', g', g'', -, -, -, -, -, h⟩ | ⟨-, -, rfl, -⟩
  · exact absurd h Bool.false_ne_true
  rw [hstep.node]
  refine ⟨fun _ => rfl, fun k hk => ?_, rfl, rfl⟩
  by_cases hkey : k = key
  · rw [hkey, hcv, isSome_some]
  · rwa [Node.cver_setCVertices_ne hkey] at hk

theorem controlAlg_sameTables (h : controlAlg n c = .ok (n', o)) (hflag : o.flagUfs = false) :
    SameTables n n' := by
  rw [controlAlg] at h
  split at h
  · split at h
    · obtain ⟨_, _, _, _, _, _, _, _, _, _, _, _, _, _, _, -, -, -, -, -, -, -, -, -, -, -, rfl⟩ :=
        remoteProc_cases h
      exact absurd hflag.symm Bool.false_ne_true
    · exact localProc_sameTables h hflag
  obtain ⟨_, _, _, _, _, _, _, _, _, _, _, _, _, _, -, -, -, -, -, -, -, -, -, -, -, hf, -⟩ :=
    serverProc_cases h
  exact absurd (hflag.symm.trans hf) Bool.false_ne_true

theorem Command.proc_cases (h : cmd.proc n c = .ok (n', o)) :
    (n' = n ∧ o.flagUfs = false ∧ (cmd = .find ∨ cmd = .umembers)) ∨
      (cmd = .uinit ∧ uinitCommand n c = .ok (n', o)) ∨
      ((cmd = .union ∨ cmd = .split) ∧ controlAlg n c = .ok (n', o)) := by
  cases cmd with
  | find =>
    simp only [Command.proc, bind_eq_ok, Except.ok.injEq, Prod.mk.injEq] at h
    obtain ⟨_, -, rfl, rfl⟩ := h
    exact .inl ⟨rfl, rfl, .inl rfl⟩
  | umembers =>
    simp only [Command.proc, bind_eq_ok, Except.ok.injEq, Prod.mk.injEq] at h
    obtain ⟨_, -, rfl, rfl⟩ := h
    exact .inl ⟨rfl, rfl, .inr rfl⟩
  | union => exact .inr (.inr ⟨.inl rfl, h⟩)
  | split => exact .inr (.inr ⟨.inr rfl, h⟩)
  | uinit => exact .inr (.inl ⟨rfl, h⟩)

theorem Command.proc_sameTables (hcmd : cmd ≠ .uinit)
    (h : cmd.proc n c = .ok (n', o)) (hflag : o.flagUfs = false) : SameTables n n' := by
  rcases Command.proc_cases h with ⟨rfl, -⟩ | ⟨h, -⟩ | ⟨-, h⟩
  · exact .refl _
  · exact absurd h hcmd
  · exact controlAlg_sameTables h hflag

/-! ## What is appended -/

def fedCommands (f : AofFile) (dictid : Nat) (argv : List Sds) : List (List Sds) :=
  (if f.selectedDb = some dictid then [] else [[selectCmd, ll2string dictid]]) ++ [argv]

section

variable {f : AofFile} {dictid : Nat}

theorem buf_feedAppendOnlyFile :
    (feedAppendOnlyFile f dictid argv).buf = f.buf ++ (fedCommands f dictid argv).flatMap resp := by
  rw [feedAppendOnlyFile, fedCommands]
  split <;> simp

theorem fedCommands_ne_nil (hargv : argv ≠ []) : ∀ a ∈ fedCommands f dictid argv, a ≠ [] := by
  intro a ha
  rw [fedCommands, mem_append, mem_singleton] at ha
  rcases ha with ha | rfl
  · split at ha
    · simp at ha
    rw [mem_singleton.mp ha]
    simp
  · exact hargv

theorem foldlM_fedCommands (r : Node) :
    (fedCommands f dictid argv).foldlM (replayCommand id port) r = replayCommand id port r argv := by
  have hselect : replayCommand id port r [selectCmd, ll2string dictid] = .ok r := if_pos rfl
  have hone : ∀ r', [argv].foldlM (replayCommand id port) r' = replayCommand id port r' argv :=
    fun r' => by simp
  rw [fedCommands, foldlM_append]
  split
  · exact hone r
  rw [foldlM_cons, hselect]
  exact hone r

end

section

variable {arity : Int}

theorem lookupCommand_of_dispatch (h : dispatch argv = some cmd) :
    ∃ arity, lookupCommand (argv.headD []) = some (cmd, arity) ∧
      ¬ ((0 < arity ∧ arity ≠ argv.length) ∨ (argv.length : Int) < -arity) := by
  rw [dispatch] at h
  split at h
  · simp at h
  next cmd' arity hlookup =>
  split at h
  · simp at h
  next harity =>
  rw [some.injEq] at h
  exact ⟨arity, h ▸ hlookup, harity⟩

theorem length_of_dispatch_uinit (h : dispatch argv = some .uinit) : argv.length = 3 := by
  obtain ⟨arity, hlookup, harity⟩ := lookupCommand_of_dispatch h
  obtain ⟨row, hrow, hcmd⟩ := Option.map_eq_some_iff.mp hlookup
  have hmem := mem_of_find?_eq_some hrow
  have : arity = 3 := by
    simp only [redisCommandTable, mem_cons, not_mem_nil, or_false] at hmem
    rcases hmem with rfl | rfl | rfl | rfl | rfl <;> cases hcmd
    rfl
  omega

theorem lookupCommand_select (h : (argv.headD []).map Char.toLower = selectCmd.map Char.toLower) :
    lookupCommand (argv.headD []) = none := by
  have hnone : redisCommandTable.find? (fun r => r.1 = selectCmd.map Char.toLower) = none := by
    decide
  rw [lookupCommand, h, hnone, map_none]

theorem replayCommand_of_lookup (h : lookupCommand (argv.headD []) = some (cmd, arity))
    (hproc : cmd.proc n (fakeClient id port argv) = .ok (n', o)) :
    replayCommand id port n argv = .ok n' := by
  have hselect : (argv.headD []).map Char.toLower ≠ selectCmd.map Char.toLower := by
    intro heq
    rw [lookupCommand_select heq] at h
    exact absurd h nofun
  rw [replayCommand, if_neg hselect, h]
  simp only [hproc]

theorem replayCommand_of_dispatch (h : dispatch argv = some cmd)
    (hproc : cmd.proc n (fakeClient id port argv) = .ok (n', o)) :
    replayCommand id port n argv = .ok n' := by
  obtain ⟨arity, hlookup, -⟩ := lookupCommand_of_dispatch h
  exact replayCommand_of_lookup hlookup hproc

end

/-! ## The file restores the graphs -/

/-- A command that is executed is a `uinit`, and is appended to the file. -/
def StoreEvent.Restorable (s : Store) : StoreEvent → Prop
  | .command c _ => ∀ cmd n o, dispatch c.argv = some cmd → cmd.proc s.node c = .ok (n, o) →
    o.flagUfs = true → cmd = .uinit ∧ s.node.feedsAof c = true
  | .links _ _ => True

/-- Until the last command is appended, only `uinit` is executed, and each one is appended. -/
def OnlyUinits : Store → List StoreEvent → Prop
  | _, [] => True
  | s, e :: events => (∀ s', s.run (e :: events) = .ok s' → s'.file = s.file) ∨
    e.Restorable s ∧ ∀ s', s.step e = .ok s' → OnlyUinits s' events

section

variable {r₀ : Node} {e : StoreEvent}

/-- The file, executed on `r₀`, gives the graphs of the node; and the graphs have not changed since
the last command was appended. -/
structure Mirrored (id port : Nat) (r₀ : Node) (s : Store) : Prop where
  file : ∃ cmds : List (List Sds), s.file.buf = cmds.flatMap resp ∧ (∀ argv ∈ cmds, argv ≠ []) ∧
    ∃ r : Node, cmds.foldlM (replayCommand id port) r₀ = .ok r ∧ ∀ k, r.graph k = s.node.graph k
  saved : ∀ k, s.saved.graph k = s.node.graph k
  known : s.node.masterhost = true → ∀ k, (s.node.cver k).isSome → (s.node.graph k).isSome

theorem Mirrored.of_same (h : Mirrored id port r₀ s) (hn : SameTables s.node n') :
    Mirrored id port r₀ { s with node := n' } := by
  obtain ⟨cmds, hbuf, hne, r, hr, hgraph⟩ := h.file
  refine ⟨⟨cmds, hbuf, hne, r, hr, fun k => ?_⟩, fun k => ?_, fun hm k hk => ?_⟩
  · rw [hgraph, hn.graph]
  · rw [h.saved, hn.graph]
  rw [hn.masterhost] at hm
  rw [hn.graph]
  exact h.known hm k (hn.cver k hk)

theorem UinitGraphs.known (hu : UinitGraphs n argv g n' o)
    (h : n.masterhost = true → ∀ k, (n.cver k).isSome → (n.graph k).isSome) :
    n'.masterhost = true → ∀ k, (n'.cver k).isSome → (n'.graph k).isSome := by
  intro hm k hk
  rw [hu.masterhost] at hm
  rw [hu.graph, isSome_or, Bool.or_eq_true]
  rcases hu.cver hm k hk with hk | rfl
  · exact .inl (h hm k hk)
  · exact .inr (by rw [if_pos rfl, isSome_some])

theorem UinitGraphs.sameTables (hu : UinitGraphs n argv g n' o) (hflag : o.flagUfs = false)
    (h : n.masterhost = true → ∀ k, (n.cver k).isSome → (n.graph k).isSome) : SameTables n n' := by
  obtain ⟨hm, hkey⟩ := hu.rejected hflag
  have hgraph : ∀ k, n'.graph k = n.graph k := by
    intro k
    rw [hu.graph]
    by_cases hk : uinitKey argv = k
    · obtain ⟨g0, hg0⟩ := Option.isSome_iff_exists.mp (h hm _ hkey)
      rw [← hk, hg0, some_or]
    · rw [if_neg hk, or_none]
  refine ⟨hgraph, fun k hk => ?_, hu.masterhost, hu.slaveRo⟩
  rcases hu.cver hm k hk with hk | rfl
  · exact hk
  · exact hkey

/-- What an event does: it changes the links, is not a command, or is executed, and then is appended
or not. -/
inductive Store.Step (s : Store) : StoreEvent → Store → Prop where
  | links (slaves : List Slave) (masterUp : Bool) : Step s (.links slaves masterUp)
      { s with node := { s.node with slaves := slaves, masterUp := masterUp } }
  | unknown {c : Client} (dictid : Nat) (hd : dispatch c.argv = none) : Step s (.command c dictid) s
  | executed {c : Client} (dictid : Nat) {cmd : Command} {n : Node} {o : Outcome}
      (hd : dispatch c.argv = some cmd) (hproc : cmd.proc s.node c = .ok (n, o))
      (hfed : ¬ (o.flagUfs = true ∧ n.feedsAof c = true)) :
      Step s (.command c dictid) { s with node := n }
  | appended {c : Client} (dictid : Nat) {cmd : Command} {n : Node} {o : Outcome}
      (hd : dispatch c.argv = some cmd) (hproc : cmd.proc s.node c = .ok (n, o))
      (hflag : o.flagUfs = true) (hfeeds : n.feedsAof c = true) :
      Step s (.command c dictid) ⟨n, feedAppendOnlyFile s.file dictid o.argv, n⟩

theorem Store.Step.of_ok (h : s.step e = .ok s') : s.Step e s' := by
  cases e with
  | links slaves masterUp =>
    cases h
    exact .links slaves masterUp
  | command c dictid =>
    rw [Store.step] at h
    split at h
    · next hd =>
      cases h
      exact .unknown dictid hd
    next cmd hd =>
    rw [Store.call, bind_eq_ok] at h
    obtain ⟨⟨n, o⟩, hproc, h⟩ := h
    simp only [Bool.and_eq_true] at h
    split at h
    · next hfed =>
      cases h
      exact .appended dictid hd hproc hfed.1 hfed.2
    next hfed =>
    cases h
    exact .executed dictid hd hproc hfed

theorem Mirrored.append (h : Mirrored id port r₀ s) (dictid : Nat) (hd : dispatch c.argv = some .uinit)
    (hproc : Command.uinit.proc s.node c = .ok (n, o)) :
    Mirrored id port r₀ ⟨n, feedAppendOnlyFile s.file dictid o.argv, n⟩ := by
  have hlen := length_of_dispatch_uinit hd
  obtain ⟨g, hg⟩ := uinitCommand_graphs hlen
  obtain ⟨n1, o1, hn1, hu⟩ := hg s.node c rfl
  obtain ⟨rfl, rfl⟩ := Prod.mk.inj (Except.ok.inj (hn1.symm.trans hproc))
  obtain ⟨cmds, hbuf, hne, r, hr, hgraph⟩ := h.file
  obtain ⟨r1, o2, hr1, hu'⟩ := hg r (fakeClient id port c.argv) rfl
  refine ⟨⟨cmds ++ fedCommands s.file dictid o1.argv, ?_, ?_, r1, ?_, fun k => ?_⟩,
    fun _ => rfl, hu.known h.known⟩
  · rw [buf_feedAppendOnlyFile, hbuf, flatMap_append]
  · intro a ha
    rcases mem_append.mp ha with ha | ha
    · exact hne a ha
    refine fedCommands_ne_nil ?_ a ha
    rw [hu.sent]
    exact ne_nil_of_length_eq_add_one hlen
  · rw [foldlM_append, hr]
    show (fedCommands s.file dictid o1.argv).foldlM (replayCommand id port) r = _
    rw [foldlM_fedCommands, hu.sent]
    exact replayCommand_of_dispatch hd hr1
  · rw [hu'.graph, hu.graph, hgraph]

theorem Mirrored.step (h : Mirrored id port r₀ s) (he : e.Restorable s) (hstep : s.step e = .ok s') :
    Mirrored id port r₀ s' := by
  cases Store.Step.of_ok hstep with
  | links slaves masterUp => exact h.of_same ⟨fun _ => rfl, fun _ h => h, rfl, rfl⟩
  | unknown => exact h
  | @executed c dictid cmd n o hd hproc hfed =>
    by_cases hcmd : cmd = .uinit
    · subst hcmd
      obtain ⟨g, hg⟩ := uinitCommand_graphs (length_of_dispatch_uinit hd)
      obtain ⟨n1, o1, hn1, hu⟩ := hg s.node c rfl
      obtain ⟨rfl, rfl⟩ := Prod.mk.inj (Except.ok.inj (hn1.symm.trans hproc))
      -- a `uinit` with an effect would have been appended
      have hflag : o1.flagUfs = false := by
        by_contra hflag
        rw [Bool.not_eq_false] at hflag
        refine hfed ⟨hflag, ?_⟩
        rw [Node.feedsAof, hu.masterhost, hu.slaveRo]
        exact (he _ n1 o1 hd hproc hflag).2
      exact h.of_same (hu.sameTables hflag h.known)
    have hflag : o.flagUfs = false := by
      by_contra hflag
      rw [Bool.not_eq_false] at hflag
      exact hcmd (he cmd n o hd hproc hflag).1
    exact h.of_same (Command.proc_sameTables hcmd hproc hflag)
  | @appended c dictid cmd n o hd hproc hflag hfeeds =>
    obtain ⟨rfl, -⟩ := he cmd n o hd hproc hflag
    exact h.append dictid hd hproc

theorem Store.run_cons :
    s.run (e :: events) = .ok s' ↔ ∃ s₁, s.step e = .ok s₁ ∧ s₁.run events = .ok s' := by
  rw [Store.run, foldlM_cons, bind_eq_ok]
  rfl

theorem Store.run_file (h : s.run events = .ok s') :
    ∃ p, s'.file.buf = s.file.buf ++ p ∧ (p = [] → s'.saved = s.saved) := by
  induction events generalizing s with
  | nil =>
    cases h
    exact ⟨[], (append_nil _).symm, fun _ => rfl⟩
  | cons e events ih =>
    obtain ⟨s1, hstep, hrun⟩ := Store.run_cons.mp h
    obtain ⟨p, hp, hsaved⟩ := ih hrun
    cases Store.Step.of_ok hstep with
    | links => exact ⟨p, hp, hsaved⟩
    | unknown => exact ⟨p, hp, hsaved⟩
    | executed => exact ⟨p, hp, hsaved⟩
    | @appended c dictid cmd n o =>
      refine ⟨(fedCommands s.file dictid o.argv).flatMap resp ++ p, ?_, fun h => ?_⟩
      · rw [hp, buf_feedAppendOnlyFile, append_assoc]
      · simp [fedCommands, resp_ne_nil] at h

theorem Mirrored.run (h : Mirrored id port r₀ s) (hevents : OnlyUinits s events)
    (hrun : s.run events = .ok s') :
    ∃ r, loadAppendOnlyFile id port r₀ s'.file.buf = .ok r ∧ ∀ k, r.graph k = s'.saved.graph k := by
  have hload : ∀ {s1 : Store}, Mirrored id port r₀ s1 → ∃ r,
      loadAppendOnlyFile id port r₀ s1.file.buf = .ok r ∧ ∀ k, r.graph k = s1.saved.graph k := by
    intro s1 h1
    obtain ⟨cmds, hbuf, hne, r, hr, hgraph⟩ := h1.file
    refine ⟨r, ?_, fun k => (hgraph k).trans (h1.saved k).symm⟩
    rw [hbuf, loadAppendOnlyFile_flatMap hne, hr]
  induction events generalizing s with
  | nil =>
    cases hrun
    exact hload h
  | cons e events ih =>
    rcases hevents with hquiet | ⟨he, hevents⟩
    · -- nothing more is appended
      have hfile := hquiet s' hrun
      obtain ⟨p, hp, hsaved⟩ := Store.run_file hrun
      rw [hfile] at hp
      rw [hfile, hsaved (self_eq_append_right.mp hp)]
      exact hload h
    obtain ⟨s1, hstep, hrun⟩ := Store.run_cons.mp hrun
    exact ih (h.step he hstep) (hevents s1 hstep) hrun

end

/-! ## The file of a server -/

/-- A `union` or `split`. -/
def IsOp (argv : List Sds) : Prop :=
  ∃ cmd arity, lookupCommand (argv.headD []) = some (cmd, arity) ∧ (cmd = .union ∨ cmd = .split)

variable {r r' n n' : Node}

/-- A server without links, and without state spaces. -/
structure NoSpaces (r : Node) : Prop where
  server : r.masterhost = false
  slaves : r.slaves = []
  spaces : r.sspacelist.getD [] = []

theorem NoSpaces.uinit (hr : NoSpaces r) (h : uinitCommand r c = .ok (r', o)) : NoSpaces r' := by
  simp only [uinitCommand, bind_eq_ok, hr.server] at h
  obtain ⟨key, -, S, -, g, -, h⟩ := h
  cases h
  exact ⟨rfl, hr.slaves, by simp [hr.spaces, hr.slaves]⟩

theorem NoSpaces.controlAlg (hr : NoSpaces r) : controlAlg r c ≠ .ok (r', o) := by
  intro h
  rw [UfsRedis.controlAlg, if_neg (by simp [hr.server])] at h
  obtain ⟨_, _, _, _, key, sv, _, _, _, _, _, _, _, _, -, -, hsv, -⟩ := serverProc_cases h
  obtain ⟨l, hl, hat⟩ := Option.bind_eq_some_iff.mp hsv
  have hspaces := hr.spaces
  rw [hl, getD_some] at hspaces
  rw [hspaces] at hat
  cases hat

theorem NoSpaces.replayCommand (hr : NoSpaces r) (h : replayCommand id port r argv = .ok r') :
    NoSpaces r' ∧ ¬ IsOp argv := by
  rw [UfsRedis.replayCommand] at h
  split at h
  · next hselect =>
    cases h
    refine ⟨hr, fun ⟨cmd, arity, hlookup, _⟩ => ?_⟩
    rw [lookupCommand_select hselect] at hlookup
    exact absurd hlookup nofun
  split at h
  · exact absurd h nofun
  next cmd arity hlookup =>
  split at h
  · next n o hproc =>
    cases h
    have hkeep : NoSpaces r' ∧ ¬ (cmd = .union ∨ cmd = .split) := by
      rcases Command.proc_cases hproc with ⟨rfl, -, hq⟩ | ⟨rfl, hu⟩ | ⟨-, hop⟩
      · exact ⟨hr, by rcases hq with rfl | rfl <;> simp⟩
      · exact ⟨hr.uinit hu, by simp⟩
      · exact absurd hop hr.controlAlg
    refine ⟨hkeep.1, fun ⟨cmd', arity', hlookup', hop⟩ => ?_⟩
    rw [hlookup] at hlookup'
    cases hlookup'
    exact hkeep.2 hop
  · exact absurd h nofun

/-- A server that executes its file to the end has no operation in it. -/
theorem not_isOp_of_replay {cmds : List (List Sds)} (hr : NoSpaces r)
    (h : cmds.foldlM (UfsRedis.replayCommand id port) r = .ok r') : ∀ a ∈ cmds, ¬ IsOp a := by
  induction cmds generalizing r with
  | nil => simp
  | cons a cmds ih =>
    rw [foldlM_cons] at h
    rcases ha : UfsRedis.replayCommand id port r a with e | r1
    · rw [ha] at h
      exact absurd h nofun
    rw [ha] at h
    obtain ⟨hr1, hop⟩ := hr.replayCommand ha
    exact forall_mem_cons.mpr ⟨hop, ih hr1 h⟩

/-! ## What a server appends -/

variable {argv' : List Sds}

theorem headD_rewriteArg (hi : i ≠ 0)
    (h : rewriteArg argv i v = .ok argv') : argv'.headD [] = argv.headD [] := by
  rw [rewriteArg] at h
  obtain _ | ⟨a, argv⟩ := argv
  · simp [hi] at h
  obtain ⟨i, rfl⟩ := Nat.exists_eq_succ_of_ne_zero hi
  split at h
  · cases h
    rfl
  split at h <;> cases h
  rfl

theorem headD_rewriteArgs (hnew : ∀ x ∈ new, x.1 ≠ 0)
    (h : rewriteArgs argv new = .ok argv') : argv'.headD [] = argv.headD [] := by
  induction new generalizing argv with
  | nil =>
    cases h
    rfl
  | cons x new ih =>
    rw [rewriteArgs, foldlM_cons, bind_eq_ok] at h
    obtain ⟨argv1, h1, h⟩ := h
    rw [ih (fun y hy => hnew y (by simp [hy])) h, headD_rewriteArg (hnew x (by simp)) h1]

theorem headD_serverArgs
    (h : serverArgs argv op oids = .ok argv') : argv'.headD [] = argv.headD [] := by
  rw [serverArgs] at h
  split at h
  · rw [bind_eq_ok] at h
    obtain ⟨a2, -, h⟩ := h
    split at h
    · exact headD_rewriteArgs (by simp) h
    · cases h
  · exact headD_rewriteArgs (by simp) h

theorem proc_server (hm : n.masterhost = false) (h : cmd.proc n c = .ok (n', o)) :
    n'.masterhost = false ∧ (o.flagUfs = true → o.argv.headD [] = c.argv.headD []) ∧
      (cmd = .union ∨ cmd = .split → o.flagUfs = true) := by
  rcases Command.proc_cases h with ⟨rfl, hflag, hq⟩ | ⟨rfl, hu⟩ | ⟨-, hop⟩
  · exact ⟨hm, fun h => absurd (hflag.symm.trans h) Bool.false_ne_true,
      fun h => by rcases hq with rfl | rfl <;> simp at h⟩
  · refine ⟨?_, fun _ => by rw [uinitCommand_argv hu], by simp⟩
    simp only [uinitCommand, bind_eq_ok, hm] at hu
    obtain ⟨key, -, S, -, g, -, hu⟩ := hu
    cases hu
    rfl
  rw [UfsRedis.controlAlg, if_neg (by simp [hm])] at hop
  obtain ⟨_, _, _, _, _, _, _, _, _, _, _, _, _, _, -, -, -, -, -, -, -, -, -, hargs, rfl, hflag,
    -⟩ := serverProc_cases hop
  exact ⟨hm, fun _ => headD_serverArgs hargs, fun _ => hflag⟩

/-- An event at a server: what it appends, and whether that is an operation. -/
theorem Store.step_server (hm : s.node.masterhost = false)
    (h : s.step e = .ok s') : s'.node.masterhost = false ∧ ∃ cmds : List (List Sds),
      s'.file.buf = s.file.buf ++ cmds.flatMap resp ∧ (∀ a ∈ cmds, a ≠ []) ∧
        ((∀ a ∈ cmds, ¬ IsOp a) → e.Restorable s) := by
  have hfeeds : ∀ (n : Node) (c : Client), n.masterhost = false → n.feedsAof c = true := by
    intro n c hn
    rw [Node.feedsAof, hn]
    rfl
  cases Store.Step.of_ok h with
  | links => exact ⟨hm, [], by simp, by simp, fun _ => trivial⟩
  | unknown dictid hd =>
    exact ⟨hm, [], by simp, by simp, fun _ cmd n o hd' => absurd (hd.symm.trans hd') (by simp)⟩
  | @executed c dictid cmd n o hd hproc hfed =>
    obtain ⟨hm', -, -⟩ := proc_server hm hproc
    refine ⟨hm', [], by simp, by simp, fun _ cmd' n' o' hd' hproc' hflag' => ?_⟩
    rw [hd, some.injEq] at hd'
    subst hd'
    rw [hproc, Except.ok.injEq, Prod.mk.injEq] at hproc'
    exact absurd ⟨hproc'.2 ▸ hflag', hfeeds n c hm'⟩ hfed
  | @appended c dictid cmd n o hd hproc hflag _ =>
    obtain ⟨hm', hhead, hop⟩ := proc_server hm hproc
    obtain ⟨arity, hlookup, -⟩ := lookupCommand_of_dispatch hd
    rw [← hhead hflag] at hlookup
    refine ⟨hm', fedCommands s.file dictid o.argv, buf_feedAppendOnlyFile, fedCommands_ne_nil ?_,
      fun hno cmd' n' o' hd' hproc' _ => ?_⟩
    · intro hnil
      rw [hnil] at hlookup
      exact absurd hlookup (by simp [lookupCommand, redisCommandTable, findCmd, umembersCmd,
        unionCmd, splitCmd, uinitCmd])
    rw [hd, some.injEq] at hd'
    subst hd'
    refine ⟨?_, hfeeds _ c hm⟩
    rcases Command.proc_cases hproc with ⟨-, hf, -⟩ | ⟨hu, -⟩ | ⟨hc, -⟩
    · exact absurd (hf.symm.trans hflag) Bool.false_ne_true
    · exact hu
    exact absurd ⟨cmd, arity, hlookup, hc⟩
      (hno o.argv (mem_append_right _ (mem_singleton_self _)))

theorem Store.run_server (hm : s.node.masterhost = false) (h : s.run events = .ok s') :
    ∃ cmds : List (List Sds), s'.file.buf = s.file.buf ++ cmds.flatMap resp ∧
      (∀ a ∈ cmds, a ≠ []) ∧ ((∀ a ∈ cmds, ¬ IsOp a) → OnlyUinits s events) := by
  induction events generalizing s with
  | nil =>
    cases h
    exact ⟨[], by simp, by simp, fun _ => trivial⟩
  | cons e events ih =>
    obtain ⟨s1, hstep, hrun⟩ := Store.run_cons.mp h
    obtain ⟨hm1, cmds, hbuf, hne, honly⟩ := Store.step_server hm hstep
    obtain ⟨cmds', hbuf', hne', honly'⟩ := ih hm1 hrun
    refine ⟨cmds ++ cmds', ?_, fun a ha => ?_, fun hno => .inr ⟨?_, fun s2 hs2 => ?_⟩⟩
    · rw [hbuf', hbuf, flatMap_append, append_assoc]
    · exact (mem_append.mp ha).elim (hne a) (hne' a)
    · exact honly fun a ha => hno a (mem_append_left _ ha)
    rw [hstep, Except.ok.injEq] at hs2
    rw [← hs2]
    exact honly' fun a ha => hno a (mem_append_right _ ha)

end UfsRedis
