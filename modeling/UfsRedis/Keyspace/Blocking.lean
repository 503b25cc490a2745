import Mathlib.Data.List.AList
import UfsRedis.Keyspace.Databases

/-!
# Blocking list operations

`BLPOP`, `BRPOP` and `BRPOPLPUSH` of `src/t_list.c`, with the commands of `src/t_list.c`,
`src/db.c`, `src/sort.c` and `src/cluster.c` that can make a key a list. A client that finds no list
blocks: each database has for a key the list of the clients that are blocked on it
(`blocking_keys`). When `dbAdd` creates a list on such a key, the key is put in `server.ready_keys`
(`signalListAsReady`), and after the command `handleClientsBlockedOnLists` serves the clients of the
keys in that list.

No key has an expire time, the server is not in cluster mode, and what is propagated is left out.
The order in which an iterator over `blocking_keys` returns the keys comes with the command.
-/

namespace UfsRedis.Blocking

/-- A value: a list, or an object of another type. -/
inductive Value where
  | list (l : List Sds)
  | other (v : Sds)
  deriving DecidableEq, Repr

/-- `redisDb`. -/
structure RedisDb where
  dict : Sds → Option Value
  blockingKeys : AList fun _ : Sds => List Nat
  readyKeys : Sds → Bool

/-- The replies of the commands below; `pair` is the reply of `BLPOP` and `BRPOP`. -/
inductive Reply where
  | ok
  | bulk (v : Sds)
  | pair (key v : Sds)
  | nullbulk
  | nullmultibulk
  | czero
  | cone
  | longLong (n : Nat)
  | wrongtypeerr
  | nokeyerr
  | outofrangeerr
  | sameobjecterr
  | busykeyerr
  | err (msg : String)
  deriving DecidableEq, Repr

/-- A `client`: `blocked` is `CLIENT_BLOCKED`, `keys` and `target` are those of `bpop`, and
`lastBlpop` says that `lastcmd->proc` is `blpopCommand`. -/
structure Client where
  db : Nat := 0
  blocked : Bool := false
  keys : List Sds := []
  target : Option Sds := none
  lastBlpop : Bool := false
  reply : List Reply := []
  deriving DecidableEq, Repr

/-- The databases, the keys that were signalled, and the clients. -/
structure Server where
  dbnum : Nat
  db : Nat → RedisDb
  readyKeys : List DbKey
  bpopBlockedClients : Nat
  client : Nat → Client

/-- `listTypePop`, with `true` for `LIST_HEAD`. -/
def listTypePop (l : List Sds) : Bool → Option (Sds × List Sds)
  | true => l.head?.map (·, l.tail)
  | false => l.getLast?.map (·, l.dropLast)

def listTypePush (l : List Sds) (v : Sds) : Bool → List Sds
  | true => v :: l
  | false => l ++ [v]

namespace Server

/-- `lookupKeyWrite`. -/
def value (s : Server) (p : DbKey) : Option Value := (s.db p.1).dict p.2

/-- The elements of a key; none if it is missing or of another type. -/
def contents (s : Server) (p : DbKey) : List Sds :=
  match s.value p with
  | some (.list l) => l
  | _ => []

/-- The clients that are blocked on a key, in the order in which they blocked. -/
def blocked (s : Server) (p : DbKey) : List Nat := ((s.db p.1).blockingKeys.lookup p.2).getD []

/-- Whether a key is in `db->ready_keys`. -/
def ready (s : Server) (p : DbKey) : Bool := (s.db p.1).readyKeys p.2

def modifyClient (s : Server) (i : Nat) (f : Client → Client) : Server :=
  { s with client := fun j => if j = i then f (s.client j) else s.client j }

def modifyDb (s : Server) (d : Nat) (f : RedisDb → RedisDb) : Server :=
  { s with db := fun d' => if d' = d then f (s.db d') else s.db d' }

def setDict (s : Server) (p : DbKey) (v : Option Value) : Server :=
  s.modifyDb p.1 fun db => { db with dict := fun k => if k = p.2 then v else db.dict k }

def setReady (s : Server) (p : DbKey) (b : Bool) : Server :=
  s.modifyDb p.1 fun db => { db with readyKeys := fun k => if k = p.2 then b else db.readyKeys k }

/-- The list of the clients blocked on a key; a key without clients has no entry. -/
def setBlocked (s : Server) (p : DbKey) (l : List Nat) : Server :=
  s.modifyDb p.1 fun db => { db with
    blockingKeys := if l = [] then db.blockingKeys.erase p.2 else db.blockingKeys.insert p.2 l }

def addReply (s : Server) (i : Nat) (r : Reply) : Server :=
  s.modifyClient i fun c => { c with reply := c.reply ++ [r] }

/-! ## Signals -/

def signalListAsReady (s : Server) (p : DbKey) : Server :=
  if (s.db p.1).blockingKeys.lookup p.2 = none then s
  else if s.ready p then s
  else { s.setReady p true with readyKeys := s.readyKeys ++ [p] }

/-- `dbAdd`: the program is aborted if the key exists. -/
def dbAdd (s : Server) (p : DbKey) (v : Value) : Except Fault Server :=
  if (s.value p).isSome then .error .assertFailed
  else
    let s := s.setDict p (some v)
    match v with
    | .list _ => .ok (s.signalListAsReady p)
    | .other _ => .ok s

/-- `dbOverwrite`: the program is aborted if the key does not exist. -/
def dbOverwrite (s : Server) (p : DbKey) (v : Value) : Except Fault Server :=
  if (s.value p).isNone then .error .assertFailed else .ok (s.setDict p (some v))

def dbDelete (s : Server) (p : DbKey) : Server := s.setDict p none

def setKey (s : Server) (p : DbKey) (v : Value) : Except Fault Server :=
  if (s.value p).isNone then s.dbAdd p v else s.dbOverwrite p v

/-! ## Blocked clients -/

/-- One round of the loop of `blockForKeys`. -/
def blockForKey (i : Nat) (s : Server) (key : Sds) : Server :=
  if key ∈ (s.client i).keys then s
  else
    let p := ((s.client i).db, key)
    (s.modifyClient i fun c => { c with keys := c.keys ++ [key] }).setBlocked p (s.blocked p ++ [i])

/-- `blockForKeys`, with `blockClient`. -/
def blockForKeys (s : Server) (i : Nat) (keys : List Sds) (target : Option Sds) : Server :=
  let s := keys.foldl (blockForKey i) (s.modifyClient i fun c => { c with target := target })
  { s.modifyClient i fun c => { c with blocked := true } with
    bpopBlockedClients := s.bpopBlockedClients + 1 }

/-- One round of the loop of `unblockClientWaitingData`. -/
def unblockKey (i : Nat) (s : Server) (key : Sds) : Except Fault Server :=
  let d := (s.client i).db
  match (s.db d).blockingKeys.lookup key with
  | none => .error .assertFailed
  | some l => if i ∈ l then .ok (s.setBlocked (d, key) (l.erase i)) else .error .nullDeref

def unblockClientWaitingData (s : Server) (i : Nat) : Except Fault Server := do
  if (s.client i).keys = [] then .error .assertFailed
  let s ← (s.client i).keys.foldlM (unblockKey i) s
  return s.modifyClient i fun c => { c with keys := [], target := none }

/-- `unblockClient`, for a client that is blocked on lists. -/
def unblockClient (s : Server) (i : Nat) : Except Fault Server := do
  if !(s.client i).blocked then .error .assertFailed
  let s ← s.unblockClientWaitingData i
  return { s.modifyClient i fun c => { c with blocked := false } with
    bpopBlockedClients := s.bpopBlockedClients - 1 }

/-! ## Serving -/

def rpoplpushHandlePush (s : Server) (i : Nat) (dst : DbKey) (v : Sds) : Except Fault Server := do
  let s ← if (s.value dst).isNone then s.dbAdd dst (.list []) else .ok s
  let s := s.setDict dst (some (.list (listTypePush (s.contents dst) v true)))
  return s.addReply i (.bulk v)

/-- `serveClientBlockedOnList`. It returns `false` for `C_ERR`. -/
def serveClientBlockedOnList (s : Server) (receiver : Nat) (key : Sds) (dstkey : Option Sds)
    (v : Sds) : Except Fault (Server × Bool) :=
  match dstkey with
  | none => .ok (s.addReply receiver (.pair key v), true)
  | some dstkey =>
    let dst := ((s.client receiver).db, dstkey)
    match s.value dst with
    | some (.other _) => .ok (s.addReply receiver .wrongtypeerr, false)
    | _ => do
      let s ← s.rpoplpushHandlePush receiver dst v
      return (s, true)

/-- The element `v` was popped for the receiver, and `l` is left: the receiver is unblocked and
served, or the pop is undone. -/
def serveReceiver (s : Server) (p : DbKey) (receiver : Nat) (v : Sds) (l : List Sds) :
    Except Fault Server := do
  let dstkey := (s.client receiver).target
  let head := (s.client receiver).lastBlpop
  let s ← (s.setDict p (some (.list l))).unblockClient receiver
  let r ← s.serveClientBlockedOnList receiver p.2 dstkey v
  return if r.2 then r.1
    else r.1.setDict p (some (.list (listTypePush (r.1.contents p) v head)))

/-- The loop of `handleClientsBlockedOnLists` over the clients of a key, with `numclients`. -/
def serveClients (p : DbKey) : Nat → Server → Except Fault Server
  | 0, s => .ok s
  | numclients + 1, s =>
    match s.blocked p with
    | [] => .error .nullDeref
    | receiver :: _ =>
      match listTypePop (s.contents p) (s.client receiver).lastBlpop with
      | none => .ok s
      | some (v, l) => do
        let s ← s.serveReceiver p receiver v l
        serveClients p numclients s

/-- The loop of `handleClientsBlockedOnLists` over the signalled keys. -/
def serveKey (s : Server) (p : DbKey) : Except Fault Server := do
  let s := s.setReady p false
  match s.value p with
  | some (.list _) =>
    let s ← serveClients p (s.blocked p).length s
    return if s.value p = some (.list []) then s.dbDelete p else s
  | _ => return s

/-- The outer loop of `handleClientsBlockedOnLists`. -/
def handleLoop : Nat → Server → Except Fault Server
  | 0, s => if s.readyKeys = [] then .ok s else .error .noFuel
  | fuel + 1, s =>
    if s.readyKeys = [] then .ok s
    else do
      let s ← s.readyKeys.foldlM serveKey { s with readyKeys := [] }
      handleLoop fuel s

/-- `handleClientsBlockedOnLists`. Each round of the outer loop but the last serves a client. -/
def handleClientsBlockedOnLists (s : Server) : Except Fault Server :=
  handleLoop (s.bpopBlockedClients + 1) s

end Server

/-! ## Commands -/

/-- The commands: `push` and `pop` are `LPUSH` and `LPOP` for `head`, else `RPUSH` and `RPOP`;
`bpop` is `BLPOP` or `BRPOP`, with at least one key. `sortStore` has the result of the sort,
`restore` the value of the payload, and `swapdb` the orders in which the iterators return the
keys. -/
inductive Command where
  | push (head : Bool) (key : Sds) (values : List Sds)
  | pop (head : Bool) (key : Sds)
  | rpoplpush (src dst : Sds)
  | bpop (head : Bool) (key : Sds) (keys : List Sds)
  | brpoplpush (src dst : Sds)
  | set (key v : Sds)
  | del (keys : List Sds)
  | rename (nx : Bool) (key newkey : Sds)
  | move (key : Sds) (dbid : Option Int)
  | swapdb (id1 id2 : Option Int) (order1 order2 : List Sds)
  | select (id : Option Int)
  | sortStore (key : Sds) (sorted : List Sds)
  | restore (replace : Bool) (key : Sds) (val : Value)
  deriving DecidableEq, Repr

namespace Server

def pushGenericCommand (s : Server) (i : Nat) (head : Bool) (key : Sds) (values : List Sds) :
    Except Fault Server := do
  let p := ((s.client i).db, key)
  match s.value p with
  | some (.other _) => return s.addReply i .wrongtypeerr
  | lobj =>
    if values = [] then return s.addReply i (.longLong (s.contents p).length)
    let s ← if lobj.isNone then s.dbAdd p (.list []) else .ok s
    let l := values.foldl (fun l v => listTypePush l v head) (s.contents p)
    return (s.setDict p (some (.list l))).addReply i (.longLong l.length)

/-- What is left of a list after a pop: an empty list is deleted. -/
def putRest (s : Server) (p : DbKey) (l : List Sds) : Server :=
  if l = [] then s.dbDelete p else s.setDict p (some (.list l))

def popGenericCommand (s : Server) (i : Nat) (head : Bool) (key : Sds) : Server :=
  let p := ((s.client i).db, key)
  match s.value p with
  | none => s.addReply i .nullbulk
  | some (.other _) => s.addReply i .wrongtypeerr
  | some (.list l) =>
    match listTypePop l head with
    | none => s.addReply i .nullbulk
    | some (v, l) => (s.addReply i (.bulk v)).putRest p l

def rpoplpushCommand (s : Server) (i : Nat) (src dst : Sds) : Except Fault Server := do
  let p := ((s.client i).db, src)
  let q := ((s.client i).db, dst)
  match s.value p with
  | none => return s.addReply i .nullbulk
  | some (.other _) => return s.addReply i .wrongtypeerr
  | some (.list l) =>
    match listTypePop l false with
    | none => return s.addReply i .nullbulk
    | some (v, l) =>
      match s.value q with
      | some (.other _) => return s.addReply i .wrongtypeerr
      | _ =>
        let s ← (s.setDict p (some (.list l))).rpoplpushHandlePush i q v
        return if s.value p = some (.list []) then s.dbDelete p else s

/-- The first key of `BLPOP` that exists and is not an empty list, with its value. -/
def firstKey (s : Server) (d : Nat) : List Sds → Option (Sds × Value)
  | [] => none
  | key :: keys =>
    match s.value (d, key) with
    | none => s.firstKey d keys
    | some (.list []) => s.firstKey d keys
    | some v => some (key, v)

/-- `blockingPopGenericCommand`; `multi` is `CLIENT_MULTI`. -/
def blockingPopGenericCommand (s : Server) (i : Nat) (multi head : Bool) (keys : List Sds) :
    Except Fault Server :=
  let d := (s.client i).db
  match s.firstKey d keys with
  | some (_, .other _) => .ok (s.addReply i .wrongtypeerr)
  | some (key, .list l) =>
    match listTypePop l head with
    | none => .error .assertFailed
    | some (v, l) => .ok ((s.addReply i (.pair key v)).putRest (d, key) l)
  | none =>
    if multi then .ok (s.addReply i .nullmultibulk) else .ok (s.blockForKeys i keys none)

def brpoplpushCommand (s : Server) (i : Nat) (multi : Bool) (src dst : Sds) : Except Fault Server :=
  match s.value ((s.client i).db, src) with
  | none =>
    if multi then .ok (s.addReply i .nullbulk) else .ok (s.blockForKeys i [src] (some dst))
  | some (.other _) => .ok (s.addReply i .wrongtypeerr)
  | some (.list []) => .error .assertFailed
  | some (.list _) => s.rpoplpushCommand i src dst

/-- `setCommand`, without options. -/
def setCommand (s : Server) (i : Nat) (key v : Sds) : Except Fault Server := do
  let s ← s.setKey ((s.client i).db, key) (.other v)
  return s.addReply i .ok

def delGenericCommand (s : Server) (i : Nat) (keys : List Sds) : Server :=
  let d := (s.client i).db
  let r := keys.foldl (fun r key =>
    if (r.1.value (d, key)).isSome then (r.1.dbDelete (d, key), r.2 + 1) else r) (s, 0)
  r.1.addReply i (.longLong r.2)

def renameGenericCommand (s : Server) (i : Nat) (nx : Bool) (key newkey : Sds) :
    Except Fault Server := do
  let d := (s.client i).db
  match s.value (d, key) with
  | none => return s.addReply i .nokeyerr
  | some o =>
    if key = newkey then return s.addReply i (if nx then .czero else .ok)
    if nx && (s.value (d, newkey)).isSome then return s.addReply i .czero
    let s := if (s.value (d, newkey)).isSome then s.dbDelete (d, newkey) else s
    let s ← s.dbAdd (d, newkey) o
    let s := s.dbDelete (d, key)
    return s.addReply i (if nx then .cone else .ok)

def moveCommand (s : Server) (i : Nat) (key : Sds) (dbid : Option Int) : Except Fault Server := do
  let src := (s.client i).db
  match moveTarget s.dbnum dbid with
  | none => return s.addReply i .outofrangeerr
  | some dst =>
    if src = dst then return s.addReply i .sameobjecterr
    match s.value (src, key) with
    | none => return s.addReply i .czero
    | some o =>
      if (s.value (dst, key)).isSome then return s.addReply i .czero
      let s ← s.dbAdd (dst, key) o
      let s := s.dbDelete (src, key)
      return s.addReply i .cone

/-- One round of the loop of `scanDatabaseForReadyLists`. -/
def scanKey (d : Nat) (s : Server) (key : Sds) : Server :=
  match s.value (d, key) with
  | some (.list _) => s.signalListAsReady (d, key)
  | _ => s

/-- `scanDatabaseForReadyLists`. The iterator returns the keys in the given order; a list that is no
order of the keys stands for that of the table. -/
def scanDatabaseForReadyLists (s : Server) (d : Nat) (order : List Sds) : Server :=
  let keys := (s.db d).blockingKeys.keys
  (if order.isPerm keys then order else keys).foldl (scanKey d) s

/-- The exchange of `dbSwapDatabases`: `blocking_keys` and `ready_keys` stay. -/
def swapDicts (s : Server) (d₁ d₂ : Nat) : Server :=
  { s with db := fun d =>
      if d = d₁ then { s.db d with dict := (s.db d₂).dict }
      else if d = d₂ then { s.db d with dict := (s.db d₁).dict }
      else s.db d }

def swapdbCommand (s : Server) (i : Nat) (id1 id2 : Option Int) (order1 order2 : List Sds) :
    Server :=
  match id1, id2 with
  | none, _ => s.addReply i (.err "invalid first DB index")
  | some _, none => s.addReply i (.err "invalid second DB index")
  | some id1, some id2 =>
    match swapTargets s.dbnum id1 id2 with
    | none => s.addReply i (.err "DB index is out of range")
    | some (d₁, d₂) =>
      let s := if d₁ = d₂ then s
        else ((s.swapDicts d₁ d₂).scanDatabaseForReadyLists d₁ order1).scanDatabaseForReadyLists d₂
          order2
      s.addReply i .ok

def selectCommand (s : Server) (i : Nat) (id : Option Int) : Server :=
  match id with
  | none => s.addReply i (.err "invalid DB index")
  | some id =>
    match selectTarget s.dbnum id with
    | none => s.addReply i (.err "DB index is out of range")
    | some d => (s.modifyClient i fun c => { c with db := d }).addReply i .ok

/-- The end of `sortCommand` with `STORE`. -/
def sortStore (s : Server) (i : Nat) (key : Sds) (sorted : List Sds) : Except Fault Server := do
  let p := ((s.client i).db, key)
  let s ← if sorted = [] then .ok (s.dbDelete p) else s.setKey p (.list sorted)
  return s.addReply i (.longLong sorted.length)

/-- `restoreCommand`, for a payload that is valid. -/
def restoreCommand (s : Server) (i : Nat) (replace : Bool) (key : Sds) (val : Value) :
    Except Fault Server := do
  let p := ((s.client i).db, key)
  if !replace && (s.value p).isSome then return s.addReply i .busykeyerr
  let s := if replace then s.dbDelete p else s
  let s ← s.dbAdd p val
  return s.addReply i .ok

/-- `call`; `multi` is `CLIENT_MULTI`. -/
def call (i : Nat) (multi : Bool) (s : Server) : Command → Except Fault Server
  | .push head key values => s.pushGenericCommand i head key values
  | .pop head key => .ok (s.popGenericCommand i head key)
  | .rpoplpush src dst => s.rpoplpushCommand i src dst
  | .bpop head key keys => s.blockingPopGenericCommand i multi head (key :: keys)
  | .brpoplpush src dst => s.brpoplpushCommand i multi src dst
  | .set key v => s.setCommand i key v
  | .del keys => .ok (s.delGenericCommand i keys)
  | .rename nx key newkey => s.renameGenericCommand i nx key newkey
  | .move key dbid => s.moveCommand i key dbid
  | .swapdb id1 id2 order1 order2 => .ok (s.swapdbCommand i id1 id2 order1 order2)
  | .select id => .ok (s.selectCommand i id)
  | .sortStore key sorted => s.sortStore i key sorted
  | .restore replace key val => s.restoreCommand i replace key val

end Server

/-- What happens at the server: a client sends a command, or an `EXEC` that runs its queue, or a
blocked client reaches its timeout. -/
inductive Event where
  | command (i : Nat) (c : Command)
  | exec (i : Nat) (cmds : List Command)
  | timeout (i : Nat)
  deriving DecidableEq, Repr

/-- `proc` is `blpopCommand`. -/
def Command.isBlpop : Command → Bool
  | .bpop head _ _ => head
  | _ => false

namespace Server

/-- The event up to `handleClientsBlockedOnLists`. The commands of a blocked client are not read. -/
def execute (s : Server) : Event → Except Fault Server
  | .command i c =>
    if (s.client i).blocked then .ok s
    else call i false (s.modifyClient i fun c' => { c' with lastBlpop := c.isBlpop }) c
  | .exec i cmds =>
    if (s.client i).blocked then .ok s
    else cmds.foldlM (call i true) (s.modifyClient i fun c => { c with lastBlpop := false })
  | .timeout i =>
    if (s.client i).blocked then (s.addReply i .nullmultibulk).unblockClient i else .ok s

/-- An event with what follows it. After a timeout no key is signalled. -/
def step (s : Server) (e : Event) : Except Fault Server := do
  let s ← s.execute e
  s.handleClientsBlockedOnLists

def run (s : Server) (events : List Event) : Except Fault Server := events.foldlM step s

/-- A server without data, and clients that have sent nothing. -/
def start (dbnum : Nat) : Server where
  dbnum := dbnum
  db _ := ⟨fun _ => none, ∅, fun _ => false⟩
  readyKeys := []
  bpopBlockedClients := 0
  client _ := {}

end Server

end UfsRedis.Blocking
