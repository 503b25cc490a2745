import Mathlib.Data.List.Nodup
import UfsRedis.Keyspace.Databases

/-!
# Watched keys

`WATCH`, `UNWATCH`, `MULTI`, `EXEC` and `DISCARD` of `src/multi.c`, with the commands of `src/db.c`
and `src/t_string.c` that give a key another value: `SET`, `DEL`, `RENAME`, `MOVE` and `SWAPDB`. No
key has an expire time, and the server is not in cluster mode.

A watched key is kept twice: the client has the list of its watched keys, and each database has for
a key the list of the clients that watch it. `Server.Linked` says that the two agree. `EXEC` does
not run its queue if a key that the client watches was signalled (`touchWatchedKey`).

`MOVE` and `SWAPDB` signal no key. `exec_sees_watched_values` is about the runs where these two
change no key that a client watches, unless the client is already marked.
-/

namespace UfsRedis.Watch

open List

variable {V : Type}

/-! ## The model -/

/-- `redisDb`. -/
structure RedisDb (V : Type) where
  dict : Sds → Option V
  watchedKeys : Sds → Option (List Nat)

/-- The replies of the commands below. -/
inductive Reply where
  | ok
  | queued
  | nullbulk
  | nullmultibulk
  | czero
  | cone
  | longLong (n : Nat)
  | multiBulkLen (n : Nat)
  | nokeyerr
  | outofrangeerr
  | sameobjecterr
  | execaborterr
  | err (msg : String)
  deriving DecidableEq, Repr

/-- The commands that are queued between `MULTI` and `EXEC`. A database number that is not an
integer is `none`. -/
inductive Command (V : Type) where
  | set (nx xx : Bool) (key : Sds) (val : V)
  | del (keys : List Sds)
  | rename (nx : Bool) (key newkey : Sds)
  | move (key : Sds) (dbid : Option Int)
  | swapdb (id1 id2 : Option Int)
  | select (id : Option Int)
  | unwatch
  deriving DecidableEq, Repr

/-- What a client sends. `refused` is a command that `processCommand` refuses with
`flagTransaction`. -/
inductive Request (V : Type) where
  | command (c : Command V)
  | watch (keys : List Sds)
  | multi
  | exec
  | discard
  | refused (msg : String)
  deriving DecidableEq, Repr

/-- A `client`. -/
structure Client (V : Type) where
  db : Nat := 0
  multi : Bool := false
  dirtyCas : Bool := false
  dirtyExec : Bool := false
  mstate : List (Command V) := []
  watchedKeys : List DbKey := []
  reply : List Reply := []

/-- The databases and the clients. -/
structure Server (V : Type) where
  dbnum : Nat
  db : Nat → RedisDb V
  client : Nat → Client V

namespace Server

/-- The value of a key. -/
def value (s : Server V) (p : DbKey) : Option V := (s.db p.1).dict p.2

/-- The clients that watch a key, by the table of its database. -/
def watchers (s : Server V) (p : DbKey) : List Nat := ((s.db p.1).watchedKeys p.2).getD []

def watched (s : Server V) (i : Nat) : List DbKey := (s.client i).watchedKeys

/-- `CLIENT_DIRTY_CAS`. -/
def dirty (s : Server V) (i : Nat) : Bool := (s.client i).dirtyCas

def modifyClient (s : Server V) (i : Nat) (f : Client V → Client V) : Server V :=
  { s with client := fun j => if j = i then f (s.client j) else s.client j }

def setDict (s : Server V) (p : DbKey) (v : Option V) : Server V :=
  { s with db := fun d =>
      if d = p.1 then { s.db d with dict := fun k => if k = p.2 then v else (s.db d).dict k }
      else s.db d }

def setWatchers (s : Server V) (p : DbKey) (l : Option (List Nat)) : Server V :=
  { s with db := fun d =>
      if d = p.1 then
        { s.db d with watchedKeys := fun k => if k = p.2 then l else (s.db d).watchedKeys k }
      else s.db d }

def addReply (s : Server V) (i : Nat) (r : Reply) : Server V :=
  s.modifyClient i fun c => { c with reply := c.reply ++ [r] }

/-- `touchWatchedKey(db,key)`. -/
def touchWatchedKey (s : Server V) (p : DbKey) : Server V :=
  match (s.db p.1).watchedKeys p.2 with
  | none => s
  | some clients =>
    { s with client := fun i =>
        if i ∈ clients then { s.client i with dirtyCas := true } else s.client i }

def signalModifiedKey (s : Server V) (p : DbKey) : Server V := s.touchWatchedKey p

/-- `dbAdd`: the program is aborted if the key exists. -/
def dbAdd (s : Server V) (p : DbKey) (v : V) : Except Fault (Server V) :=
  if (s.value p).isSome then .error .assertFailed else .ok (s.setDict p (some v))

/-- `dbOverwrite`: the program is aborted if the key does not exist. -/
def dbOverwrite (s : Server V) (p : DbKey) (v : V) : Except Fault (Server V) :=
  if (s.value p).isNone then .error .assertFailed else .ok (s.setDict p (some v))

def dbDelete (s : Server V) (p : DbKey) : Server V := s.setDict p none

def setKey (s : Server V) (p : DbKey) (v : V) : Except Fault (Server V) := do
  let s ← if (s.value p).isNone then s.dbAdd p v else s.dbOverwrite p v
  return s.signalModifiedKey p

/-- `setGenericCommand`, without an expire time. -/
def setGenericCommand (s : Server V) (i : Nat) (nx xx : Bool) (key : Sds) (val : V) :
    Except Fault (Server V) := do
  let p := ((s.client i).db, key)
  if (nx && (s.value p).isSome) || (xx && (s.value p).isNone) then return s.addReply i .nullbulk
  let s ← s.setKey p val
  return s.addReply i .ok

/-- The loop of `delGenericCommand`, with `numdel`. -/
def delKeys (d : Nat) : List Sds → Nat → Server V → Server V × Nat
  | [], numdel, s => (s, numdel)
  | key :: keys, numdel, s =>
    if (s.value (d, key)).isSome then
      delKeys d keys (numdel + 1) ((s.dbDelete (d, key)).signalModifiedKey (d, key))
    else delKeys d keys numdel s

def delGenericCommand (s : Server V) (i : Nat) (keys : List Sds) : Server V :=
  let (s, numdel) := delKeys (s.client i).db keys 0 s
  s.addReply i (.longLong numdel)

def renameGenericCommand (s : Server V) (i : Nat) (nx : Bool) (key newkey : Sds) :
    Except Fault (Server V) := do
  let d := (s.client i).db
  match s.value (d, key) with
  | none => return s.addReply i .nokeyerr
  | some o =>
    if key = newkey then return s.addReply i (if nx then .czero else .ok)
    if nx && (s.value (d, newkey)).isSome then return s.addReply i .czero
    let s := if (s.value (d, newkey)).isSome then s.dbDelete (d, newkey) else s
    let s ← s.dbAdd (d, newkey) o
    let s := s.dbDelete (d, key)
    let s := s.signalModifiedKey (d, key)
    let s := s.signalModifiedKey (d, newkey)
    return s.addReply i (if nx then .cone else .ok)

def moveCommand (s : Server V) (i : Nat) (key : Sds) (dbid : Option Int) :
    Except Fault (Server V) := do
  let src := (s.client i).db
  match moveTarget s.dbnum dbid with
  | none => return s.addReply i .outofrangeerr
  | some dst =>
    if src = dst then return s.addReply i .sameobjecterr
    match s.value (src, key) with
    | none => return s.addReply i .czero
    | some o =>
      if (s.value (dst, key)).isSome then return s.addReply i .czero
      let s ← s.dbAdd (dst, key) o
      let s := s.dbDelete (src, key)
      return s.addReply i .cone

/-- The exchange of `dbSwapDatabases`: `watched_keys` stays. -/
def swapDicts (s : Server V) (d₁ d₂ : Nat) : Server V :=
  { s with db := fun d =>
      if d = d₁ then { s.db d with dict := (s.db d₂).dict }
      else if d = d₂ then { s.db d with dict := (s.db d₁).dict }
      else s.db d }

def swapdbCommand (s : Server V) (i : Nat) (id1 id2 : Option Int) : Server V :=
  match id1, id2 with
  | none, _ => s.addReply i (.err "invalid first DB index")
  | some _, none => s.addReply i (.err "invalid second DB index")
  | some id1, some id2 =>
    match swapTargets s.dbnum id1 id2 with
    | none => s.addReply i (.err "DB index is out of range")
    | some (d₁, d₂) => (if d₁ = d₂ then s else s.swapDicts d₁ d₂).addReply i .ok

def selectCommand (s : Server V) (i : Nat) (id : Option Int) : Server V :=
  match id with
  | none => s.addReply i (.err "invalid DB index")
  | some id =>
    match selectTarget s.dbnum id with
    | none => s.addReply i (.err "DB index is out of range")
    | some d => (s.modifyClient i fun c => { c with db := d }).addReply i .ok

def watchForKey (i : Nat) (s : Server V) (key : Sds) : Server V :=
  let p := ((s.client i).db, key)
  if p ∈ s.watched i then s
  else
    let s := s.setWatchers p (some (s.watchers p ++ [i]))
    s.modifyClient i fun c => { c with watchedKeys := c.watchedKeys ++ [p] }

/-- One round of the loop of `unwatchAllKeys`. -/
def unwatchKey (i : Nat) (s : Server V) (p : DbKey) : Except Fault (Server V) :=
  match (s.db p.1).watchedKeys p.2 with
  | none => .error .assertFailed
  | some clients =>
    if i ∈ clients then
      let clients := clients.erase i
      let s := s.setWatchers p (if clients = [] then none else some clients)
      .ok (s.modifyClient i fun c => { c with watchedKeys := c.watchedKeys.erase p })
    else .error .nullDeref

/-- `unwatchAllKeys(c)`. -/
def unwatchAllKeys (s : Server V) (i : Nat) : Except Fault (Server V) :=
  (s.watched i).foldlM (unwatchKey i) s

def unwatchCommand (s : Server V) (i : Nat) : Except Fault (Server V) := do
  let s ← s.unwatchAllKeys i
  let s := s.modifyClient i fun c => { c with dirtyCas := false }
  return s.addReply i .ok

/-- `call`, for the commands that can be queued. -/
def call (i : Nat) (s : Server V) : Command V → Except Fault (Server V)
  | .set nx xx key val => s.setGenericCommand i nx xx key val
  | .del keys => .ok (s.delGenericCommand i keys)
  | .rename nx key newkey => s.renameGenericCommand i nx key newkey
  | .move key dbid => s.moveCommand i key dbid
  | .swapdb id1 id2 => .ok (s.swapdbCommand i id1 id2)
  | .select id => .ok (s.selectCommand i id)
  | .unwatch => s.unwatchCommand i

def discardTransaction (s : Server V) (i : Nat) : Except Fault (Server V) :=
  (s.modifyClient i fun c =>
    { c with mstate := [], multi := false, dirtyCas := false, dirtyExec := false }).unwatchAllKeys i

/-- `execCommand` runs the queue of the client. -/
def ExecRuns (s : Server V) (i : Nat) : Prop :=
  (s.client i).multi = true ∧ (s.client i).dirtyCas = false ∧ (s.client i).dirtyExec = false

instance (s : Server V) (i : Nat) : Decidable (s.ExecRuns i) := inferInstanceAs (Decidable (_ ∧ _))

/-- `execCommand(c)`. -/
def execCommand (s : Server V) (i : Nat) : Except Fault (Server V) :=
  if !(s.client i).multi then return s.addReply i (.err "EXEC without MULTI")
  else if (s.client i).dirtyCas || (s.client i).dirtyExec then
    (s.addReply i (if (s.client i).dirtyExec then .execaborterr else .nullmultibulk)).discardTransaction
      i
  else do
    let cmds := (s.client i).mstate
    let s ← s.unwatchAllKeys i
    let s ← cmds.foldlM (call i) (s.addReply i (.multiBulkLen cmds.length))
    s.discardTransaction i

/-- `processCommand(c)`: after `MULTI` a command is queued. -/
def processCommand (s : Server V) (i : Nat) : Request V → Except Fault (Server V)
  | .command c =>
    if (s.client i).multi then
      .ok ((s.modifyClient i fun c' => { c' with mstate := c'.mstate ++ [c] }).addReply i .queued)
    else s.call i c
  | .watch keys =>
    if (s.client i).multi then .ok (s.addReply i (.err "WATCH inside MULTI is not allowed"))
    else .ok ((keys.foldl (watchForKey i) s).addReply i .ok)
  | .multi =>
    if (s.client i).multi then .ok (s.addReply i (.err "MULTI calls can not be nested"))
    else .ok ((s.modifyClient i fun c => { c with multi := true }).addReply i .ok)
  | .exec => s.execCommand i
  | .discard =>
    if (s.client i).multi then do
      let s ← s.discardTransaction i
      return s.addReply i .ok
    else .ok (s.addReply i (.err "DISCARD without MULTI"))
  | .refused msg =>
    .ok ((s.modifyClient i fun c => { c with dirtyExec := c.dirtyExec || c.multi }).addReply i
      (.err msg))

/-- A server with these data and with clients that have sent nothing. -/
def start (dbnum : Nat) (dict : Nat → Sds → Option V) : Server V where
  dbnum := dbnum
  db d := ⟨dict d, fun _ => none⟩
  client _ := {}

end Server

/-! ## What the parts of a command change -/

namespace Server

variable (s : Server V) (i : Nat) (p : DbKey)

section

variable (f : Client V → Client V)
include f

@[simp] theorem value_modifyClient : (s.modifyClient i f).value = s.value := rfl

@[simp] theorem watchers_modifyClient : (s.modifyClient i f).watchers = s.watchers := rfl

theorem client_modifyClient (j : Nat) :
    (s.modifyClient i f).client j = if j = i then f (s.client j) else s.client j := rfl

end

variable {f : Client V → Client V}

theorem watched_modifyClient
    (hf : ∀ c, (f c).watchedKeys = c.watchedKeys) : (s.modifyClient i f).watched = s.watched := by
  funext j
  unfold watched
  rw [client_modifyClient]
  split
  · exact hf _
  · rfl

theorem dirty_modifyClient (hf : ∀ c, (f c).dirtyCas = c.dirtyCas) :
    (s.modifyClient i f).dirty = s.dirty := by
  funext j
  unfold dirty
  rw [client_modifyClient]
  split
  · exact hf _
  · rfl

@[simp] theorem value_addReply (r : Reply) : (s.addReply i r).value = s.value := rfl

@[simp] theorem watched_addReply (r : Reply) : (s.addReply i r).watched = s.watched :=
  watched_modifyClient s i fun _ => rfl

@[simp] theorem dirty_addReply (r : Reply) : (s.addReply i r).dirty = s.dirty :=
  dirty_modifyClient s i fun _ => rfl

@[simp] theorem watched_setDict (v : Option V) : (s.setDict p v).watched = s.watched := rfl

@[simp] theorem dirty_setDict (v : Option V) : (s.setDict p v).dirty = s.dirty := rfl

@[simp] theorem watchers_setDict (v : Option V) : (s.setDict p v).watchers = s.watchers := by
  funext q
  unfold watchers setDict
  dsimp only
  split <;> rfl

@[simp] theorem value_setDict (v : Option V) (q : DbKey) :
    (s.setDict p v).value q = if q = p then v else s.value q := by
  exact ite_dbKey (fun db : RedisDb V => db.dict q.2) rfl

section

variable (l : Option (List Nat))
include l

@[simp] theorem value_setWatchers : (s.setWatchers p l).value = s.value := by
  funext q
  unfold value setWatchers
  dsimp only
  split <;> rfl

@[simp] theorem watchers_setWatchers (q : DbKey) :
    (s.setWatchers p l).watchers q = if q = p then l.getD [] else s.watchers q := by
  refine ite_dbKey (fun db : RedisDb V => (db.watchedKeys q.2).getD []) ?_
  exact apply_ite (Option.getD · []) _ _ _

end

@[simp] theorem value_signalModifiedKey : (s.signalModifiedKey p).value = s.value := by
  unfold signalModifiedKey touchWatchedKey
  split <;> rfl

@[simp] theorem watchers_signalModifiedKey : (s.signalModifiedKey p).watchers = s.watchers := by
  unfold signalModifiedKey touchWatchedKey
  split <;> rfl

@[simp] theorem watched_signalModifiedKey : (s.signalModifiedKey p).watched = s.watched := by
  unfold signalModifiedKey touchWatchedKey
  split
  · rfl
  funext i
  unfold watched
  dsimp only
  split <;> rfl

@[simp] theorem dirty_signalModifiedKey :
    (s.signalModifiedKey p).dirty i = (decide (i ∈ s.watchers p) || s.dirty i) := by
  unfold signalModifiedKey touchWatchedKey watchers
  split
  · next h => simp [h]
  next clients h =>
  rw [h]
  unfold dirty
  dsimp
  by_cases hi : i ∈ clients <;> simp [hi]

@[simp] theorem watched_swapDicts (d₁ d₂ : Nat) : (s.swapDicts d₁ d₂).watched = s.watched := rfl

@[simp] theorem dirty_swapDicts (d₁ d₂ : Nat) : (s.swapDicts d₁ d₂).dirty = s.dirty := rfl

@[simp] theorem watchers_swapDicts (d₁ d₂ : Nat) : (s.swapDicts d₁ d₂).watchers = s.watchers := by
  funext q
  unfold watchers swapDicts
  dsimp only
  split
  · rfl
  · split <;> rfl

theorem value_swapDicts (d₁ d₂ : Nat) : (s.swapDicts d₁ d₂).value p =
      if p.1 = d₁ then s.value (d₂, p.2) else if p.1 = d₂ then s.value (d₁, p.2) else s.value p := by
  unfold value swapDicts
  dsimp only
  split
  · rfl
  · split <;> rfl

end Server

/-! ## The two tables of watched keys -/

/-- The lists of the clients and the tables of the databases have the same watched keys. -/
structure Server.Linked (s : Server V) : Prop where
  mem_watchers : ∀ i p, i ∈ s.watchers p ↔ p ∈ s.watched i
  nodup_watchers : ∀ p, (s.watchers p).Nodup
  nodup_watched : ∀ i, (s.watched i).Nodup

namespace Server.Linked

variable {s s' : Server V} {i : Nat} {p : DbKey}

theorem congr (h : s.Linked) (hwatchers : s'.watchers = s.watchers)
    (hwatched : s'.watched = s.watched) : s'.Linked where
  mem_watchers i p := by
    rw [hwatchers, hwatched]
    exact h.mem_watchers i p
  nodup_watchers p := by
    rw [hwatchers]
    exact h.nodup_watchers p
  nodup_watched i := by
    rw [hwatched]
    exact h.nodup_watched i

theorem start (dbnum : Nat) (dict : Nat → Sds → Option V) : (Server.start dbnum dict).Linked where
  mem_watchers i p := by simp [Server.start, watchers, watched]
  nodup_watchers p := nodup_nil
  nodup_watched i := nodup_nil

variable (h : s.Linked)
include h

theorem insert (hp : p ∉ s.watched i)
    (hwatchers : ∀ q, s'.watchers q = if q = p then s.watchers q ++ [i] else s.watchers q)
    (hwatched : ∀ j, s'.watched j = if j = i then s.watched j ++ [p] else s.watched j) :
    s'.Linked where
  mem_watchers j q := by
    rw [hwatched, hwatchers]
    have hm := h.mem_watchers j q
    by_cases hj : j = i
    · subst hj
      by_cases hqp : q = p
      · simp [hqp]
      · simp [hqp, hm]
    rw [if_neg hj, ← hm]
    by_cases hqp : q = p
    · simp [hj, hqp]
    · rw [if_neg hqp]
  nodup_watchers q := by
    rw [hwatchers]
    split
    · next hqp =>
      rw [← concat_eq_append]
      exact (h.nodup_watchers q).concat fun hm => hp (hqp ▸ (h.mem_watchers i q).mp hm)
    · exact h.nodup_watchers q
  nodup_watched j := by
    rw [hwatched]
    split
    · next hj =>
      rw [← concat_eq_append]
      exact (h.nodup_watched j).concat (hj ▸ hp)
    · exact h.nodup_watched j

theorem erase
    (hwatchers : ∀ q, s'.watchers q = if q = p then (s.watchers q).erase i else s.watchers q)
    (hwatched : ∀ j, s'.watched j = if j = i then (s.watched j).erase p else s.watched j) :
    s'.Linked where
  mem_watchers j q := by
    rw [hwatched, hwatchers]
    have hm := h.mem_watchers j q
    split
    · rename_i hqp
      rw [(h.nodup_watchers q).mem_erase_iff, hm]
      by_cases hj : j = i
      · rw [if_pos hj, (h.nodup_watched j).mem_erase_iff]
        simp [hj, hqp]
      · simp [hj]
    rename_i hqp
    rw [hm]
    split
    · rw [(h.nodup_watched j).mem_erase_iff]
      simp [hqp]
    · rfl
  nodup_watchers q := by
    rw [hwatchers]
    split
    · exact (h.nodup_watchers q).erase i
    · exact h.nodup_watchers q
  nodup_watched j := by
    rw [hwatched]
    split
    · exact (h.nodup_watched j).erase p
    · exact h.nodup_watched j

/-- `watchForKey` puts the key in both tables, and changes nothing else. -/
theorem watchForKey (key : Sds) :
    (s.watchForKey i key).Linked ∧ (s.watchForKey i key).value = s.value ∧
      (s.watchForKey i key).dirty = s.dirty ∧
      ∀ j, ∀ p ∈ s.watched j, p ∈ (s.watchForKey i key).watched j := by
  unfold Server.watchForKey
  dsimp only
  generalize ((s.client i).db, key) = q
  split
  · exact ⟨h, rfl, rfl, fun _ _ hp => hp⟩
  next hq =>
  have hwatched : ∀ j, ((s.setWatchers q (some (s.watchers q ++ [i]))).modifyClient i fun c =>
      { c with watchedKeys := c.watchedKeys ++ [q] }).watched j =
      if j = i then s.watched j ++ [q] else s.watched j := by
    intro j
    unfold watched
    rw [client_modifyClient]
    split <;> rfl
  refine ⟨h.insert hq (fun p => ?_) hwatched, ?_, ?_, fun j p hp => ?_⟩
  · rw [watchers_modifyClient, watchers_setWatchers]
    split
    · next hpq => rw [hpq, Option.getD_some]
    · rfl
  · rw [value_modifyClient, value_setWatchers]
  · exact dirty_modifyClient _ _ fun _ => rfl
  rw [hwatched]
  split
  · exact mem_append_left _ hp
  · exact hp

/-- A round of the loop of `unwatchAllKeys` takes the key from both tables. -/
theorem unwatchKey (hp : p ∈ s.watched i) :
    ∃ s', s.unwatchKey i p = .ok s' ∧ s'.Linked ∧ s'.value = s.value ∧ s'.dirty = s.dirty ∧
      ∀ j, s'.watched j = if j = i then (s.watched j).erase p else s.watched j := by
  have hi : i ∈ s.watchers p := (h.mem_watchers i p).mpr hp
  unfold Server.unwatchKey
  rcases htable : (s.db p.1).watchedKeys p.2 with _ | clients
  · unfold watchers at hi
    rw [htable] at hi
    cases hi
  have hclients : s.watchers p = clients := by
    unfold watchers
    rw [htable]
    rfl
  rw [hclients] at hi
  dsimp only
  rw [if_pos hi]
  refine ⟨_, rfl, ?_⟩
  generalize hl : (if clients.erase i = [] then none else some (clients.erase i)) = l
  have hgetD : l.getD [] = clients.erase i := by
    rw [← hl]
    split
    · next h => exact h.symm
    · rfl
  have hwatched : ∀ j, ((s.setWatchers p l).modifyClient i fun c =>
      { c with watchedKeys := c.watchedKeys.erase p }).watched j =
      if j = i then (s.watched j).erase p else s.watched j := by
    intro j
    unfold watched
    rw [client_modifyClient]
    split <;> rfl
  refine ⟨h.erase (fun q => ?_) hwatched, ?_, ?_, hwatched⟩
  · rw [watchers_modifyClient, watchers_setWatchers, hgetD]
    split
    · next hqp => rw [hqp, hclients]
    · rfl
  · rw [value_modifyClient, value_setWatchers]
  · exact dirty_modifyClient _ _ fun _ => rfl

theorem unwatchAllKeys (i : Nat) :
    ∃ s', s.unwatchAllKeys i = .ok s' ∧ s'.Linked ∧ s'.value = s.value ∧ s'.dirty = s.dirty ∧
      ∀ j, s'.watched j = if j = i then [] else s.watched j := by
  unfold Server.unwatchAllKeys
  -- Each round takes the first key of the list, so what is left of the loop is the list.
  generalize hl : s.watched i = l
  induction l generalizing s with
  | nil =>
    refine ⟨s, rfl, h, rfl, rfl, fun j => ?_⟩
    split
    · next hj => rw [hj, hl]
    · rfl
  | cons p l ih =>
    obtain ⟨s1, hs1, h1, hv1, hd1, hw1⟩ := h.unwatchKey (hl ▸ mem_cons_self : p ∈ s.watched i)
    have hl1 : s1.watched i = l := by
      rw [hw1, if_pos rfl, hl, erase_cons_head]
    obtain ⟨s2, hs2, h2, hv2, hd2, hw2⟩ := ih h1 hl1
    refine ⟨s2, ?_, h2, hv2.trans hv1, hd2.trans hd1, fun j => ?_⟩
    · rw [foldlM_cons, hs1]
      exact hs2
    rw [hw2, hw1]
    split <;> rfl

end Server.Linked

/-! ## Commands -/

/-- From `s` to `s'` no client watches another key, and what a client watches that is not marked has
its value. -/
structure Server.Keeps (s s' : Server V) : Prop where
  linked : s'.Linked
  watched : ∀ i, ∀ p ∈ s'.watched i, p ∈ s.watched i
  clean : ∀ i, ∀ p ∈ s'.watched i, s'.dirty i = false → s.dirty i = false ∧ s'.value p = s.value p

namespace Server

variable {s s' s'' : Server V} {i : Nat}

theorem Keeps.refl (h : s.Linked) : s.Keeps s := ⟨h, fun _ _ hp => hp, fun _ _ _ hd => ⟨hd, rfl⟩⟩

theorem Keeps.trans (h : s.Keeps s') (h' : s'.Keeps s'') : s.Keeps s'' where
  linked := h'.linked
  watched i p hp := h.watched i p (h'.watched i p hp)
  clean i p hp hd := by
    obtain ⟨hd', hv'⟩ := h'.clean i p hp hd
    obtain ⟨hd, hv⟩ := h.clean i p (h'.watched i p hp) hd'
    exact ⟨hd, hv'.trans hv⟩

/-- What leaves the watched keys, and marks each client that watches a key with a new value. -/
theorem Linked.keeps (h : s.Linked) (hwatchers : s'.watchers = s.watchers)
    (hwatched : s'.watched = s.watched) (hdirty : ∀ j, s'.dirty j = false → s.dirty j = false)
    (hvalue : ∀ p, ∀ j ∈ s.watchers p, s'.dirty j = false → s'.value p = s.value p) :
    s.Keeps s' where
  linked := h.congr hwatchers hwatched
  watched _ _ hp := hwatched ▸ hp
  clean i p hp hd := ⟨hdirty i hd, hvalue p i ((h.mem_watchers i p).mpr (hwatched ▸ hp)) hd⟩

variable {f : Client V → Client V}

theorem Linked.keeps_modifyClient (h : s.Linked)
    (hw : ∀ c, (f c).watchedKeys = c.watchedKeys) (hd : ∀ c, (f c).dirtyCas = c.dirtyCas) :
    s.Keeps (s.modifyClient i f) := by
  apply h.keeps
  · rfl
  · exact watched_modifyClient s i hw
  · intro j hj
    rwa [dirty_modifyClient s i hd] at hj
  intro p j _ _
  rfl

theorem Linked.keeps_addReply (h : s.Linked) (r : Reply) : s.Keeps (s.addReply i r) :=
  h.keeps_modifyClient (fun _ => rfl) fun _ => rfl

theorem Keeps.addReply (h : s.Keeps s') (r : Reply) : s.Keeps (s'.addReply i r) :=
  h.trans (h.linked.keeps_addReply r)

theorem Linked.keeps_write (h : s.Linked) (p : DbKey) (v : Option V) :
    s.Keeps ((s.setDict p v).signalModifiedKey p) := by
  apply h.keeps
  · simp
  · simp
  · simp
  intro q j hj hd
  have hqp : q ≠ p := by
    rintro rfl
    simp [hj] at hd
  simp [hqp]

theorem setKey_eq (s : Server V) (p : DbKey) (v : V) :
    s.setKey p v = .ok ((s.setDict p (some v)).signalModifiedKey p) := by
  unfold setKey dbAdd dbOverwrite
  cases s.value p <;> rfl

theorem setGenericCommand_keeps (h : s.Linked) (nx xx : Bool) (key : Sds) (val : V) :
    ∃ s', s.setGenericCommand i nx xx key val = .ok s' ∧ s.Keeps s' := by
  unfold setGenericCommand
  dsimp only
  split
  · exact ⟨_, rfl, h.keeps_addReply _⟩
  rw [setKey_eq]
  exact ⟨_, rfl, (h.keeps_write _ _).addReply _⟩

theorem delKeys_keeps (d : Nat) (keys : List Sds) (numdel : Nat) (h : s.Linked) :
    s.Keeps (delKeys d keys numdel s).1 := by
  induction keys generalizing numdel s with
  | nil => exact Keeps.refl h
  | cons key keys ih =>
    unfold delKeys
    split
    · have hw : s.Keeps ((s.dbDelete (d, key)).signalModifiedKey (d, key)) := h.keeps_write _ _
      exact hw.trans (ih _ hw.linked)
    · exact ih _ h

theorem renameGenericCommand_keeps (h : s.Linked) (nx : Bool) (key newkey : Sds) :
    ∃ s', s.renameGenericCommand i nx key newkey = .ok s' ∧ s.Keeps s' := by
  unfold renameGenericCommand
  dsimp only
  generalize (s.client i).db = d
  split
  · exact ⟨_, rfl, h.keeps_addReply _⟩
  next o ho =>
  split
  · exact ⟨_, rfl, h.keeps_addReply _⟩
  split
  · exact ⟨_, rfl, h.keeps_addReply _⟩
  -- Whether or not the new key exists, it is missing before it is added.
  obtain ⟨s1, hs1, hmissing, hvalue, hwatchers, hwatched, hdirty⟩ : ∃ s1 : Server V,
      (if (s.value (d, newkey)).isSome then s.dbDelete (d, newkey) else s) = s1 ∧
      s1.value (d, newkey) = none ∧ (∀ q, q ≠ (d, newkey) → s1.value q = s.value q) ∧
      s1.watchers = s.watchers ∧ s1.watched = s.watched ∧ s1.dirty = s.dirty := by
    refine ⟨_, rfl, ?_⟩
    split
    · unfold dbDelete
      simp +contextual
    · next hnone => exact ⟨by simpa using hnone, fun _ _ => rfl, rfl, rfl, rfl⟩
  rw [hs1]
  unfold dbAdd dbDelete
  rw [hmissing]
  refine ⟨_, rfl, ?_⟩
  apply Keeps.addReply
  apply h.keeps
  · simp [hwatchers]
  · simp [hwatched]
  · simp [hdirty]
  intro q j hj hd
  simp only [dirty_signalModifiedKey, watchers_signalModifiedKey, watchers_setDict, hwatchers,
    Bool.or_eq_false_iff, decide_eq_false_iff_not] at hd
  obtain ⟨hnew, hold, -⟩ := hd
  have hqnew : q ≠ (d, newkey) := fun e => hnew (e ▸ hj)
  have hqold : q ≠ (d, key) := fun e => hold (e ▸ hj)
  simp [hqnew, hqold, hvalue q hqnew]

theorem Keeps.of_unwatched (h' : s'.Linked) (hvalue : s'.value = s.value)
    (hdirty : ∀ j, j ≠ i → s'.dirty j = s.dirty j)
    (hwatched : ∀ j, s'.watched j = if j = i then [] else s.watched j) : s.Keeps s' where
  linked := h'
  watched j p hp := by
    rw [hwatched] at hp
    split at hp
    · cases hp
    · exact hp
  clean j p hp hd := by
    rw [hwatched] at hp
    split at hp
    · cases hp
    · next hj => exact ⟨hdirty j hj ▸ hd, congrFun hvalue p⟩

theorem dirty_modifyClient_of_ne (s : Server V) (f : Client V → Client V) (hj : j ≠ i) :
    (s.modifyClient i f).dirty j = s.dirty j := by
  unfold dirty
  rw [client_modifyClient, if_neg hj]

theorem unwatchAllKeys_keeps (h : s.Linked) (hf : ∀ c, (f c).watchedKeys = c.watchedKeys) :
    ∃ s', (s.modifyClient i f).unwatchAllKeys i = .ok s' ∧ s.Keeps s' := by
  have hwatched : (s.modifyClient i f).watched = s.watched := watched_modifyClient s i hf
  have hlinked : (s.modifyClient i f).Linked := h.congr rfl hwatched
  obtain ⟨s', hs', h', hv, hd, hw⟩ := hlinked.unwatchAllKeys i
  refine ⟨s', hs', Keeps.of_unwatched (i := i) h' hv (fun j hj => ?_) fun j => ?_⟩
  · rw [hd, dirty_modifyClient_of_ne s f hj]
  · rw [hw, hwatched]

theorem discardTransaction_keeps (h : s.Linked) :
    ∃ s', s.discardTransaction i = .ok s' ∧ s.Keeps s' :=
  unwatchAllKeys_keeps h fun _ => rfl

theorem unwatchCommand_keeps (h : s.Linked) : ∃ s', s.unwatchCommand i = .ok s' ∧ s.Keeps s' := by
  unfold unwatchCommand
  obtain ⟨s1, hs1, h1, hv1, hd1, hw1⟩ := h.unwatchAllKeys i
  rw [hs1]
  refine ⟨_, rfl, ?_⟩
  apply Keeps.addReply
  generalize hf : (fun c : Client V => { c with dirtyCas := false }) = f
  have hwatched : (s1.modifyClient i f).watched = s1.watched :=
    watched_modifyClient s1 i fun _ => by rw [← hf]
  have hlinked : (s1.modifyClient i f).Linked := h1.congr rfl hwatched
  apply Keeps.of_unwatched hlinked
  · exact hv1
  · intro j hj
    rw [dirty_modifyClient_of_ne s1 f hj, hd1]
  intro j
  rw [hwatched, hw1]

end Server

/-! ## Commands that signal no key -/

/-- A `MOVE` that moves the key finds no client that watches it, in either database, without a mark.
After a `SWAPDB` each key that such a client watches has its value. -/
def Command.Harmless (s : Server V) (i : Nat) : Command V → Prop
  | .move key dbid =>
    ∀ dst, moveTarget s.dbnum dbid = some dst → (s.client i).db ≠ dst →
      s.value ((s.client i).db, key) ≠ none → s.value (dst, key) = none →
      ∀ j ∈ s.watchers ((s.client i).db, key) ++ s.watchers (dst, key), s.dirty j = true
  | .swapdb id1 id2 =>
    ∀ n₁ n₂ d₁ d₂, id1 = some n₁ → id2 = some n₂ → swapTargets s.dbnum n₁ n₂ = some (d₁, d₂) →
      ∀ key, ∀ j ∈ s.watchers (d₁, key) ++ s.watchers (d₂, key),
        s.dirty j = true ∨ s.value (d₁, key) = s.value (d₂, key)
  | _ => True

namespace Server

variable {s s' : Server V} {i : Nat}

theorem moveCommand_keeps (h : s.Linked) (hc : (Command.move key dbid : Command V).Harmless s i) :
    ∃ s', s.moveCommand i key dbid = .ok s' ∧ s.Keeps s' := by
  unfold moveCommand
  dsimp only
  split
  · exact ⟨_, rfl, h.keeps_addReply _⟩
  next dst hdst =>
  split
  · exact ⟨_, rfl, h.keeps_addReply _⟩
  next hne =>
  split
  · exact ⟨_, rfl, h.keeps_addReply _⟩
  next o ho =>
  split
  · exact ⟨_, rfl, h.keeps_addReply _⟩
  next hnone =>
  have hnone : s.value (dst, key) = none := by simpa using hnone
  have hmarked := hc dst hdst hne (by simp [ho]) hnone
  unfold dbAdd dbDelete
  rw [hnone]
  refine ⟨_, rfl, ?_⟩
  apply Keeps.addReply
  apply h.keeps
  · simp
  · simp
  · simp
  intro q j hj hd
  have hclean : ¬ s.dirty j = true := by
    rw [dirty_setDict, dirty_setDict] at hd
    simp [hd]
  have hsrc : q ≠ ((s.client i).db, key) := by
    rintro rfl
    exact hclean (hmarked j (mem_append_left _ hj))
  have hdst : q ≠ (dst, key) := by
    rintro rfl
    exact hclean (hmarked j (mem_append_right _ hj))
  simp [hsrc, hdst]

theorem swapdbCommand_keeps (h : s.Linked)
    (hc : (Command.swapdb id1 id2 : Command V).Harmless s i) : s.Keeps (s.swapdbCommand i id1 id2) := by
  unfold swapdbCommand
  split
  · exact h.keeps_addReply _
  · exact h.keeps_addReply _
  next n1 n2 =>
  split
  · exact h.keeps_addReply _
  next d1 d2 htargets =>
  have hsame := hc n1 n2 d1 d2 rfl rfl htargets
  apply Keeps.addReply
  split
  · exact Keeps.refl h
  apply h.keeps
  · simp
  · simp
  · simp
  rintro ⟨d, key⟩ j hj hd
  have hclean : ¬ s.dirty j = true := by
    rw [dirty_swapDicts] at hd
    simp [hd]
  rw [value_swapDicts]
  split
  · next e =>
    subst e
    exact ((hsame key j (mem_append_left _ hj)).resolve_left hclean).symm
  split
  · next e =>
    subst e
    exact (hsame key j (mem_append_right _ hj)).resolve_left hclean
  · rfl

theorem selectCommand_keeps (h : s.Linked) (id : Option Int) : s.Keeps (s.selectCommand i id) := by
  unfold selectCommand
  split
  · exact h.keeps_addReply _
  split
  · exact h.keeps_addReply _
  apply Keeps.addReply
  exact h.keeps_modifyClient (fun _ => rfl) fun _ => rfl

theorem call_keeps (h : s.Linked) (hc : c.Harmless s i) :
    ∃ s', s.call i c = .ok s' ∧ s.Keeps s' := by
  cases c with
  | set nx xx key val => exact setGenericCommand_keeps h nx xx key val
  | del keys => exact ⟨_, rfl, (delKeys_keeps _ keys 0 h).addReply _⟩
  | rename nx key newkey => exact renameGenericCommand_keeps h nx key newkey
  | move key dbid => exact moveCommand_keeps h hc
  | swapdb id1 id2 => exact ⟨_, rfl, swapdbCommand_keeps h hc⟩
  | select id => exact ⟨_, rfl, selectCommand_keeps h id⟩
  | unwatch => exact unwatchCommand_keeps h

/-- Each command of a queue is harmless when it is executed. -/
def QueueHarmless (i : Nat) : Server V → List (Command V) → Prop
  | _, [] => True
  | s, c :: cmds => c.Harmless s i ∧ ∀ s', s.call i c = .ok s' → QueueHarmless i s' cmds

theorem queue_keeps (h : s.Linked) (hq : QueueHarmless i s cmds) :
    ∃ s', cmds.foldlM (call i) s = .ok s' ∧ s.Keeps s' := by
  induction cmds generalizing s with
  | nil => exact ⟨s, rfl, Keeps.refl h⟩
  | cons c cmds ih =>
    obtain ⟨s1, hs1, hk1⟩ := call_keeps h hq.1
    obtain ⟨s2, hs2, hk2⟩ := ih hk1.linked (hq.2 s1 hs1)
    refine ⟨s2, ?_, hk1.trans hk2⟩
    rw [foldlM_cons, hs1]
    exact hs2

theorem execCommand_keeps (h : s.Linked) (hq : s.ExecRuns i → ∀ s₁, s.unwatchAllKeys i = .ok s₁ →
      QueueHarmless i (s₁.addReply i (.multiBulkLen (s.client i).mstate.length)) (s.client i).mstate) :
    ∃ s', s.execCommand i = .ok s' ∧ s.Keeps s' := by
  unfold execCommand
  split
  · exact ⟨_, rfl, h.keeps_addReply _⟩
  next hmulti =>
  split
  · have hreply : s.Keeps _ := h.keeps_addReply (i := i)
      (if (s.client i).dirtyExec then .execaborterr else .nullmultibulk)
    obtain ⟨s', hs', hk⟩ := discardTransaction_keeps hreply.linked
    exact ⟨s', hs', hreply.trans hk⟩
  next hflags =>
  have hruns : s.ExecRuns i := by
    rw [Bool.or_eq_true, not_or, Bool.not_eq_true, Bool.not_eq_true] at hflags
    exact ⟨by simpa using hmulti, hflags.1, hflags.2⟩
  obtain ⟨s₁, hs1, h1, hv1, hd1, hw1⟩ := h.unwatchAllKeys i
  have hk1 : s.Keeps s₁ := Keeps.of_unwatched h1 hv1 (fun j _ => congrFun hd1 j) hw1
  obtain ⟨s2, hs2, hk2⟩ := queue_keeps (h1.keeps_addReply _).linked (hq hruns s₁ hs1)
  obtain ⟨s3, hs3, hk3⟩ := discardTransaction_keeps (i := i) hk2.linked
  refine ⟨s3, ?_, ((hk1.addReply _).trans hk2).trans hk3⟩
  rw [hs1, ok_bind, hs2, ok_bind, hs3]

theorem watchKeys_spec (h : s.Linked) (keys : List Sds) :
    (keys.foldl (watchForKey i) s).Linked ∧ (keys.foldl (watchForKey i) s).value = s.value ∧
      (keys.foldl (watchForKey i) s).dirty = s.dirty ∧
      ∀ j, ∀ p ∈ s.watched j, p ∈ (keys.foldl (watchForKey i) s).watched j := by
  induction keys generalizing s with
  | nil => exact ⟨h, rfl, rfl, fun _ _ hp => hp⟩
  | cons key keys ih =>
    obtain ⟨h1, hv1, hd1, hw1⟩ := h.watchForKey (i := i) key
    obtain ⟨h2, hv2, hd2, hw2⟩ := ih h1
    exact ⟨h2, hv2.trans hv1, hd2.trans hd1, fun j p hp => hw2 j p (hw1 j p hp)⟩

end Server

/-! ## Runs -/

/-- What a client sends changes no key that a client without a mark watches, unless it signals the
key. -/
def Request.Harmless (s : Server V) (i : Nat) : Request V → Prop
  | .command c => (s.client i).multi = false → c.Harmless s i
  | .exec => s.ExecRuns i → ∀ s₁, s.unwatchAllKeys i = .ok s₁ →
      Server.QueueHarmless i (s₁.addReply i (.multiBulkLen (s.client i).mstate.length))
        (s.client i).mstate
  | _ => True

/-- A server, with the value that each watched key had when its client began to watch it. -/
structure Observed (V : Type) where
  server : Server V
  seen : Nat → DbKey → Option V

namespace Observed

def step (o : Observed V) (e : Nat × Request V) : Except Fault (Observed V) := do
  let s ← o.server.processCommand e.1 e.2
  return {
    server := s
    seen := fun i p =>
      if p ∈ s.watched i ∧ p ∉ o.server.watched i then s.value p else o.seen i p }

def run (o : Observed V) (events : List (Nat × Request V)) : Except Fault (Observed V) :=
  events.foldlM step o

def start (dbnum : Nat) (dict : Nat → Sds → Option V) : Observed V where
  server := Server.start dbnum dict
  seen _ _ := none

/-- Each request is harmless in the state that it comes to. -/
def RunHarmless : Observed V → List (Nat × Request V) → Prop
  | _, [] => True
  | o, e :: events => e.2.Harmless o.server e.1 ∧ ∀ o', o.step e = .ok o' → RunHarmless o' events

/-- The watched keys of a client without a mark have the values that it has seen. -/
structure Sound (o : Observed V) : Prop where
  linked : o.server.Linked
  seen : ∀ i, o.server.dirty i = false → ∀ p ∈ o.server.watched i, o.server.value p = o.seen i p

variable {o : Observed V} {e : Nat × Request V}

theorem Sound.start (dbnum : Nat) (dict : Nat → Sds → Option V) : (start dbnum dict).Sound :=
  ⟨Server.Linked.start dbnum dict, fun _ _ _ hp => absurd hp not_mem_nil⟩

theorem Sound.of_keeps (h : o.Sound)
    (hs : o.server.processCommand e.1 e.2 = .ok s) (hk : o.server.Keeps s) :
    ∃ o', o.step e = .ok o' ∧ o'.Sound := by
  unfold step
  rw [hs]
  refine ⟨_, rfl, hk.linked, fun i hd p hp => ?_⟩
  obtain ⟨hd', hv⟩ := hk.clean i p hp hd
  have hp' := hk.watched i p hp
  show s.value p = if p ∈ s.watched i ∧ p ∉ o.server.watched i then s.value p else o.seen i p
  rw [if_neg fun hnew => hnew.2 hp', hv]
  exact h.seen i hd' p hp'

theorem Sound.watch (h : o.Sound) {keys}
    (hs : o.server.processCommand i (.watch keys) = .ok s)
    (hs' : s = (keys.foldl (Server.watchForKey i) o.server).addReply i .ok) :
    ∃ o', o.step (i, .watch keys) = .ok o' ∧ o'.Sound := by
  obtain ⟨hl, hv, hd, hw⟩ := Server.watchKeys_spec (i := i) h.linked keys
  unfold step
  rw [hs, hs']
  refine ⟨_, rfl, (hl.keeps_addReply _).linked, fun j hdj p hp => ?_⟩
  simp only [Server.value_addReply, Server.watched_addReply, Server.dirty_addReply] at hdj hp ⊢
  by_cases hold : p ∈ o.server.watched j
  · rw [if_neg fun hnew => hnew.2 hold, hv]
    exact h.seen j (hd ▸ hdj) p hold
  · rw [if_pos ⟨hp, hold⟩]

theorem Sound.step (h : o.Sound) (he : e.2.Harmless o.server e.1) :
    ∃ o', o.step e = .ok o' ∧ o'.Sound := by
  obtain ⟨i, r⟩ := e
  cases r with
  | command c =>
    by_cases hmulti : (o.server.client i).multi = true
    · refine h.of_keeps (e := (i, .command c)) (if_pos hmulti) ?_
      apply Server.Keeps.addReply
      exact h.linked.keeps_modifyClient (fun _ => rfl) fun _ => rfl
    obtain ⟨s, hs, hk⟩ := Server.call_keeps h.linked (he (Bool.eq_false_iff.mpr hmulti))
    exact h.of_keeps (e := (i, .command c)) ((if_neg hmulti).trans hs) hk
  | watch keys =>
    by_cases hmulti : (o.server.client i).multi = true
    · exact h.of_keeps (e := (i, .watch keys)) (if_pos hmulti) (h.linked.keeps_addReply _)
    · exact h.watch (if_neg hmulti) rfl
  | multi =>
    by_cases hmulti : (o.server.client i).multi = true
    · exact h.of_keeps (e := (i, .multi)) (if_pos hmulti) (h.linked.keeps_addReply _)
    refine h.of_keeps (e := (i, .multi)) (if_neg hmulti) ?_
    apply Server.Keeps.addReply
    exact h.linked.keeps_modifyClient (fun _ => rfl) fun _ => rfl
  | exec =>
    obtain ⟨s, hs, hk⟩ := Server.execCommand_keeps h.linked he
    exact h.of_keeps (e := (i, .exec)) hs hk
  | discard =>
    by_cases hmulti : (o.server.client i).multi = true
    · obtain ⟨s, hs, hk⟩ := Server.discardTransaction_keeps (i := i) h.linked
      refine h.of_keeps (e := (i, .discard)) ((if_pos hmulti).trans ?_)
        (hk.addReply (i := i) .ok)
      rw [hs]
      rfl
    · exact h.of_keeps (e := (i, .discard)) (if_neg hmulti) (h.linked.keeps_addReply _)
  | refused msg =>
    refine h.of_keeps (e := (i, .refused msg)) rfl ?_
    apply Server.Keeps.addReply
    exact h.linked.keeps_modifyClient (fun _ => rfl) fun _ => rfl

theorem Sound.run (h : o.Sound) (hr : o.RunHarmless events) :
    ∃ o', o.run events = .ok o' ∧ o'.Sound := by
  induction events generalizing o with
  | nil => exact ⟨o, rfl, h⟩
  | cons e events ih =>
    obtain ⟨o1, ho1, h1⟩ := h.step hr.1
    obtain ⟨o2, ho2, h2⟩ := ih h1 (hr.2 o1 ho1)
    refine ⟨o2, ?_, h2⟩
    unfold Observed.run
    rw [foldlM_cons, ho1]
    exact ho2

end Observed

/-- In every interleaving of harmless requests, no assertion fails, and whenever `EXEC` runs the
queue of a client, every key that the client watches has the value (or is missing) as it was
seen. -/
theorem exec_sees_watched_values (dbnum : Nat) (dict : Nat → Sds → Option V)
    (events : List (Nat × Request V)) (h : (Observed.start dbnum dict).RunHarmless events) :
    ∃ o, (Observed.start dbnum dict).run events = .ok o ∧
      ∀ i, o.server.ExecRuns i → ∀ p ∈ o.server.watched i, o.server.value p = o.seen i p := by
  obtain ⟨o, ho, hsound⟩ := (Observed.Sound.start dbnum dict).run h
  exact ⟨o, ho, fun i hi => hsound.seen i hi.2.1⟩

def oneKey (d : Nat) (k : Sds) : Option Nat := if d = 0 ∧ k = ['k'] then some 1 else none

/-- Client 0 watches a key that no command changes; client 1 moves another key. -/
theorem exec_sees_watched_values_other_key : ∃ o, (Observed.start 16 oneKey).run
        [(0, .watch [['x']]), (0, .multi), (1, .command (.move ['k'] (some 1)))] = .ok o ∧
      ∀ i, o.server.ExecRuns i → ∀ p ∈ o.server.watched i, o.server.value p = o.seen i p := by
  apply exec_sees_watched_values
  refine ⟨trivial, fun o1 h1 => ⟨trivial, fun o2 h2 => ⟨?_, fun _ _ => trivial⟩⟩⟩
  cases h1
  cases h2
  intro _ dst hdst _ _ _ j hj
  cases hdst
  cases hj

/-- Client 0 watches a key, client 1 moves the key to another database, and `EXEC` runs. With
`SWAPDB` in place of `MOVE` it is the same. -/
theorem watched_key_moved : (∃ o, (Observed.start 16 oneKey).run
        [(0, .watch [['k']]), (0, .multi), (1, .command (.move ['k'] (some 1)))] = .ok o ∧
      o.server.ExecRuns 0 ∧ (0, ['k']) ∈ o.server.watched 0 ∧ o.seen 0 (0, ['k']) = some 1 ∧
      o.server.value (0, ['k']) = none) ∧ (∃ o, (Observed.start 16 oneKey).run
        [(0, .watch [['k']]), (0, .multi), (1, .command (.swapdb (some 0) (some 1)))] = .ok o ∧
      o.server.ExecRuns 0 ∧ (0, ['k']) ∈ o.server.watched 0 ∧ o.seen 0 (0, ['k']) = some 1 ∧
      o.server.value (0, ['k']) = none) := by
  decide

end UfsRedis.Watch
