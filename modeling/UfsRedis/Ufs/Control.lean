import UfsRedis.Ufs.Graph
import UfsRedis.Ot.Space
import UfsRedis.Lib.FirstMatch

/-!
# Commands: `controlAlg`, `uinitCommand` and `call`

A `Node` is a Redis instance: the server (without `masterhost`), which keeps one state space for
each client and key, or a client (with `masterhost`), which keeps one for each key. Both keep a
graph for each key. A `Client` is the connection that a command comes from.

`controlAlg` processes `union` and `split` in three ways:

* `localProc`: an operation of a user at a client is checked, recorded, executed, and its command is
  extended by its `oid` and its context;
* `remoteProc`: an operation from the server is transformed at a client, and executed;
* `serverProc`: an operation from a client is transformed at the server, added to the spaces of the
  other clients, and its command is rewritten for them.

`call` then decides by `flag_ufs` and the configuration where the command is sent.
-/

namespace UfsRedis

open Lib

/-! ## State -/

/-- A `verlist`: the state space of one client and key at the server. -/
structure Verlist where
  id : Nat
  key : Sds
  lenUfs : Nat
  vertices : Space
  deriving DecidableEq

/-- A `cverlist`: the state space of a key at a client. -/
structure CVerlist where
  key : Sds
  lenUfs : Nat
  vertices : Space
  deriving DecidableEq

/-- A connected slave: its `id`, its `slave_listening_port`, and whether its `replstate` is
`SLAVE_STATE_WAIT_BGSAVE_START`. -/
structure Slave where
  id : Nat
  port : Nat
  waitBgsave : Bool
  deriving DecidableEq

/-- What `controlAlg` and `call` read and write of `server`. The lists are `NULL` before the first
`uinit`. `masterUp` is `server.master != NULL`. -/
structure Node where
  port : Nat
  masterhost : Bool
  slaveRo : Bool
  masterUp : Bool
  slaves : List Slave
  opNum : Nat
  ufslist : Option (List CudGraph)
  cspacelist : Option (List CVerlist)
  sspacelist : Option (List Verlist)
  deriving DecidableEq

/-- What a command reads of its connection: the arguments, the flags `CLIENT_MASTER` and
`CLIENT_SLAVE`, the `id` and the `slave_listening_port`, which is 0 for an ordinary connection. -/
structure Client where
  argv : List Sds
  master : Bool
  slave : Bool
  id : Nat
  listeningPort : Nat
  deriving DecidableEq

/-- A reply of a command. -/
inductive Reply where
  | ok
  | err (e : ArgvErr)
  | argvuaddexistufs
  deriving DecidableEq

def Reply.text : Reply → String
  | .ok => "+OK\r\n"
  | .err e => e.text
  | .argvuaddexistufs => "-The union-find-split has existed!\r\n"

/-- What a command leaves in its connection: the rewritten arguments, `flag_ufs`, and the reply it
adds, if any. -/
structure Outcome where
  argv : List Sds
  flagUfs : Bool
  reply : Option Reply
  deriving DecidableEq

/-! ## Arguments -/

/-- `c->argv[i]->ptr`. -/
def arg (argv : List Sds) (i : Nat) : Except Fault Sds :=
  match argv[i]? with
  | some a => .ok a
  | none => .error .argvBounds

/-- `c->argv[c->argc-1]->ptr`: the key. -/
def keyArg (argv : List Sds) : Except Fault Sds :=
  match argv.getLast? with
  | some a => .ok a
  | none => .error .argvBounds

/-- `rewriteClientCommandArgument(c,i,newval)`. -/
def rewriteArg (argv : List Sds) (i : Nat) (newval : Sds) : Except Fault (List Sds) :=
  if i < argv.length then .ok (argv.set i newval)
  else if i = argv.length then .ok (argv ++ [newval])
  else .error .argvBounds

/-- Several calls of `rewriteClientCommandArgument`. -/
def rewriteArgs (argv : List Sds) (new : List (Nat × Sds)) : Except Fault (List Sds) :=
  new.foldlM (fun argv (i, newval) => rewriteArg argv i newval) argv

/-- What the remote and the server processing read from a command: `a1`, `a2`, `oid` and `ctx`. -/
def parseArgs (argv : List Sds) : Except Fault (Sds × Option Sds × Sds × Sds) := do
  if argv.length = 6 then
    .ok (← arg argv 1, some (← arg argv 2), ← arg argv 3, ← arg argv 4)
  else
    .ok (← arg argv 1, none, ← arg argv 2, ← arg argv 3)

/-! ## Tables -/

/-- `getUfs(key)`. -/
def getUfs (n : Node) (key : Sds) : Except Fault (Option CudGraph) := do
  .ok ((← deref n.ufslist).find? (·.key = key))

/-- `locateCVerlist(key)`. `src/ot.h` has no prototype of it, so its callers take the result for an
`int`; the whole pointer is assumed to come back. -/
def locateCVerlist (n : Node) (key : Sds) : Except Fault (Option CVerlist) := do
  .ok ((← deref n.cspacelist).find? (·.key = key))

/-- `locateVerlist(id,key)`. -/
def locateVerlist (n : Node) (id : Nat) (key : Sds) : Except Fault (Option Verlist) := do
  .ok ((← deref n.sspacelist).find? fun s => s.id = id ∧ s.key = key)

/-- The graph of `getUfs(key)` after it has been changed. -/
def setUfs (n : Node) (key : Sds) (g : CudGraph) : Node :=
  { n with ufslist := n.ufslist.map (updateFirst (fun ufs => ufs.key = key) fun _ => g) }

/-- The vertices of `locateCVerlist(key)` after they have been changed. -/
def setCVertices (n : Node) (key : Sds) (V : Space) : Node :=
  { n with
    cspacelist := n.cspacelist.map
      (updateFirst (fun s => s.key = key) fun s => { s with vertices := V }) }

/-! ## Local processing -/

/-- `checkArgv(c,argv)`. -/
def checkArgv (n : Node) (argv : List Sds) : Except Fault (Option ArgvErr) := do
  let g ← deref (← getUfs n (← keyArg argv))
  if (← arg argv 0) = unionCmd then checkUnionArgv g (← arg argv 1) (← arg argv 2)
  else checkSplitArgv g (← arg argv 1)

def localOp (argv : List Sds) : Except Fault UfsOp := do
  if (← arg argv 0) = unionCmd then .ok (unionOp (← arg argv 1) (← arg argv 2))
  else .ok (splitOp (← arg argv 1))

/-- The command for the server: `union x y oid ctx key` or `split x oid ctx key`. -/
def localArgs (argv : List Sds) (oid oids : Sds) : Except Fault (List Sds) := do
  if argv.length = 4 then
    let key ← arg argv 3
    rewriteArgs argv [(3, oid), (4, oids), (5, key)]
  else
    let key ← arg argv 2
    rewriteArgs argv [(2, oid), (3, oids), (4, key)]

/-- The execution of a local operation, with the arguments as they have been rewritten. Only the
lower-case names are recognised here. -/
def localExec (n : Node) (argv : List Sds) : Except Fault (Node × Bool) := do
  let name ← arg argv 0
  let key ← keyArg argv
  if name = unionCmd then
    let g ← deref (← getUfs n key)
    .ok (setUfs n key (← unionProc g (← arg argv 1) (← arg argv 2)), true)
  else if name = splitCmd then
    let g ← deref (← getUfs n key)
    .ok (setUfs n key (← splitProc g (← arg argv 1)), true)
  else .ok (n, false)

/-- `controlAlg` at a client, for a command of a user. -/
def localProc (n : Node) (argv : List Sds) : Except Fault (Node × Outcome) := do
  let key ← keyArg argv
  let cvlist ← deref (← locateCVerlist n key)
  let V := cvlist.vertices
  match ← checkArgv n argv with
  | some e => .ok (n, ⟨argv, false, some (.err e)⟩)
  | none =>
    let opNum := n.opNum + 1
    if V = [] then .error .nullDeref
    else
      let oids ← calculateOids V (V.length + 1) 0 initOids
      let oid ← createOid n.port opNum
      let op ← localOp argv
      let argv' ← localArgs argv oid oids
      let (n', executed) ← localExec { n with opNum := opNum } argv'
      let ufs ← deref (← getUfs n' key)
      let V' ← addLast V .l op oid fun _ => .ok (updateVerticeUfs ufs)
      .ok (setCVertices n' key V', ⟨argv', executed, if executed then some .ok else none⟩)

/-! ## Remote processing -/

/-- `controlAlg` at a client, for a command of the server. -/
def remoteProc (n : Node) (argv : List Sds) : Except Fault (Node × Outcome) := do
  let key ← keyArg argv
  let cvlist ← deref (← locateCVerlist n key)
  let (a1, a2, oid, ctx) ← parseArgs argv
  let name ← arg argv 0
  let op : UfsOp := if name = unionCmd then ⟨.union, a1, a2⟩ else splitOp a1
  -- the content of the first new vertice is computed from the arguments, not from `a1` and `a2`
  let cop ← localOp argv
  let (V, u, _) ← receive cvlist.vertices cvlist.lenUfs .r op cop oid ctx
  let e ← deref (← V.vertice u).redge
  let g ← deref (← getUfs n key)
  let g' ← execOp g e.op
  .ok (setCVertices (setUfs n key g') key V, ⟨argv, true, some .ok⟩)

/-! ## Server processing -/

/-- The operation `e` of the sender is put on the last vertice of another client's space. -/
def feedSpace (key : Sds) (port lenUfs : Nat) (e : Dedge) (s : Verlist) : Except Fault Verlist := do
  if s.key ≠ key ∨ s.id = port then .ok s
  else
    let V ← addLast s.vertices .r e.op e.oid fun loc =>
      updateVerticeUfsFromState loc.content e.op lenUfs
    .ok { s with vertices := V }

/-- The command for the other clients. A union that came as another number of arguments than 6 is
written past the end of the local array `argv[5]`. -/
def serverArgs (argv : List Sds) (op : UfsOp) (oids : Sds) : Except Fault (List Sds) := do
  match op.optype with
  | .union =>
    let a2 ← deref op.argv2
    if argv.length = 6 then rewriteArgs argv [(1, op.argv1), (2, a2), (4, oids)]
    else .error .bufferOverflow
  | .split => rewriteArgs argv [(1, op.argv1), (3, oids)]

/-- `controlAlg` at the server. -/
def serverProc (n : Node) (c : Client) : Except Fault (Node × Outcome) := do
  let (a1, a2, oid, ctx) ← parseArgs c.argv
  let key ← keyArg c.argv
  let s ← deref (← locateVerlist n c.listeningPort key)
  let name ← arg c.argv 0
  let op : UfsOp := ⟨if name = unionCmd then .union else .split, a1, a2⟩
  let (V, u, oids) ← receive s.vertices s.lenUfs .l op op oid ctx
  let e ← deref (← V.vertice u).ledge
  let spaces := updateFirst (fun s => s.id = c.listeningPort ∧ s.key = key)
    (fun s => { s with vertices := V }) (← deref n.sspacelist)
  let spaces ← spaces.mapM (feedSpace key c.listeningPort s.lenUfs e)
  let argv ← serverArgs c.argv e.op oids
  .ok ({ n with sspacelist := some spaces }, ⟨argv, true, none⟩)

/-- `controlAlg(c)`. -/
def controlAlg (n : Node) (c : Client) : Except Fault (Node × Outcome) :=
  if n.masterhost then
    if c.master then remoteProc n c.argv else localProc n c.argv
  else serverProc n c

/-! ## `uinit` -/

/-- `uinitCommand(c)`. A key that exists is noticed by a client only, and after its new graph has
been added behind the old one. -/
def uinitCommand (n : Node) (c : Client) : Except Fault (Node × Outcome) := do
  let key ← arg c.argv 1
  let ufs ← uinitGraph key (← arg c.argv 2)
  let n := { n with ufslist := some (n.ufslist.getD [] ++ [ufs]) }
  let content := updateVerticeUfs ufs
  if n.masterhost then
    let spaces := n.cspacelist.getD []
    if spaces.any (·.key = key) then
      .ok ({ n with cspacelist := some spaces }, ⟨c.argv, false, some .argvuaddexistufs⟩)
    else
      let v : CVerlist := ⟨key, content.length, [Vertice.create content]⟩
      .ok ({ n with cspacelist := some (spaces ++ [v]) }, ⟨c.argv, true, some .ok⟩)
  else
    let new := n.slaves.map fun s : Slave =>
      (⟨s.port, key, content.length, [Vertice.create content]⟩ : Verlist)
    .ok ({ n with sspacelist := some (n.sspacelist.getD [] ++ new) }, ⟨c.argv, true, some .ok⟩)

/-! ## `call` -/

/-- Where a command is sent. -/
inductive Dest where
  | master
  | slave (id : Nat)
  deriving DecidableEq

def replicationFeedMaster (n : Node) : List Dest := if n.masterUp then [.master] else []

def replicationFeedSlaves (n : Node) : List Dest :=
  if n.masterhost then [] else (n.slaves.filter fun s => !s.waitBgsave).map (.slave ·.id)

def replicationFeedExSlave (n : Node) (id : Nat) : List Dest :=
  if n.masterhost then []
  else (n.slaves.filter fun s => s.id ≠ id ∧ !s.waitBgsave).map (.slave ·.id)

/-- Where `call` sends the command of connection `c`. -/
def propagate (n : Node) (c : Client) (flagUfs : Bool) : List Dest :=
  if !flagUfs then []
  else if n.masterhost && !n.slaveRo then
    if c.master then [] else replicationFeedMaster n
  else if c.slave then replicationFeedExSlave n c.id
  else replicationFeedSlaves n

/-- `call(c)` for a command `proc`: the new state, the outcome, and where the rewritten command is
sent. `flag_ufs` is cleared before the command. -/
def call (proc : Node → Client → Except Fault (Node × Outcome)) (n : Node) (c : Client) :
    Except Fault (Node × Outcome × List Dest) := do
  let (n', o) ← proc n c
  .ok (n', o, propagate n' c o.flagUfs)

end UfsRedis
