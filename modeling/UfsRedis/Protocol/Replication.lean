import UfsRedis.Ufs.Control
import UfsRedis.Lib.CircularBuffer
import UfsRedis.Protocol.Resp

/-!
# The replication stream, byte by byte

The server writes every propagated command to its replication stream: the end of the stream is kept
in the backlog, and the command is queued on the links of the slaves. `replicationFeedExSlave`
leaves out the link that the command came from. A slave that lost its link asks with `PSYNC` for the
stream from the byte after the last one that it received.

* `Server.step`, `Server.run`: what happens at the server;
* `Server.Ok`: the backlog holds the end of the stream, and the links are those of slaves;
* `Server.Fed.run`: what is queued on a link in a run.

The names are those of the source in a namespace of their own: the modules on the operations read a
link as a channel of commands, and `dests_replicationFeedExSlave` connects the two.
-/

namespace UfsRedis.Repl

open List Lib Option

/-! ## Links -/

/-- `replstate` of a connection. -/
inductive ReplState where
  | none
  | waitBgsaveStart
  | waitBgsaveEnd
  | sendBulk
  | online
  deriving DecidableEq

/-- The `flags` of a connection that decide what is queued on it. `lua` is also `CLIENT_MODULE`, and
`replyOff` is also `CLIENT_REPLY_SKIP`. -/
structure Flags where
  lua : Bool
  replyOff : Bool
  master : Bool
  masterForceReply : Bool
  slave : Bool
  underFeed : Bool
  closeAfterReply : Bool
  deriving DecidableEq

def Flags.new : Flags := ⟨false, false, false, false, false, false, false⟩

def Flags.ofSlave (underFeed : Bool) : Flags :=
  { Flags.new with slave := true, underFeed := underFeed }

/-- A connection at the server. `out` is what has been queued on it. -/
structure Link where
  id : Nat
  fd : Int
  port : Nat
  capa : Nat
  flags : Flags
  replstate : ReplState
  psyncInitialOffset : Int
  out : List Char
  deriving DecidableEq

/-- `prepareClientToWrite(c) == C_OK`. -/
def Link.prepareClientToWrite (c : Link) : Bool :=
  if c.flags.lua then true
  else if c.flags.replyOff then false
  else if c.flags.master && !c.flags.masterForceReply then false
  else if c.flags.slave && !c.flags.underFeed then false
  else if c.fd ≤ 0 then false
  else true

/-- `p` is queued. -/
def Link.queue (c : Link) (p : List Char) : Link := { c with out := c.out ++ p }

/-- `addReply`, `addReplySds` and `addReplyString`. -/
def Link.addReply (c : Link) (p : List Char) : Link :=
  if !c.prepareClientToWrite then c
  else if c.flags.closeAfterReply then c
  else c.queue p

def Link.addReplyMultiBulkLen (c : Link) (n : Nat) : Link := c.addReply (lenHeader '*' n)

def Link.addReplyBulk (c : Link) (o : Sds) : Link :=
  ((c.addReply (lenHeader '$' o.length)).addReply o).addReply crlf

/-- `CLIENT_UNDER_FEED` is set or cleared. -/
def Link.setUnderFeed (c : Link) (u : Bool) : Link :=
  { c with flags := { c.flags with underFeed := u } }

/-- The link of a slave in `replicationFeedSlaves`. -/
def Link.feed (c : Link) (argv : List Sds) : Link :=
  let c := c.setUnderFeed true
  -- a slave that is skipped here keeps `CLIENT_UNDER_FEED`
  if c.replstate = .waitBgsaveStart then c
  else (argv.foldl Link.addReplyBulk (c.addReplyMultiBulkLen argv.length)).setUnderFeed false

/-- The link of a slave in `replicationFeedExSlave`. -/
def Link.feedEx (c : Link) (id : Nat) (argv : List Sds) : Link :=
  if c.id = id then c.setUnderFeed true else c.feed argv

/-! ## The server -/

/-- The backlog, and the offset of its first byte, `repl_backlog_off`. -/
structure Backlog where
  ring : CircularBuffer Char
  off : Int

/-- Where a running `BGSAVE` writes. -/
inductive RdbTarget where
  | disk
  | socket
  deriving DecidableEq

/-- What replication reads and writes of `server`. `stream` is all that has been written to the
replication stream; the code keeps only the end of it. There are no slaves without a backlog. -/
structure Server where
  masterhost : Bool
  masterConnected : Bool
  replid : Sds
  replid2 : Sds
  secondReplidOffset : Int
  backlogSize : Nat
  backlog : Option Backlog
  masterReplOffset : Int
  slaves : List Link
  rdbChild : Option RdbTarget
  stream : List Char
  size_pos : 0 < backlogSize
  has_backlog : slaves ≠ [] → backlog.isSome

def createReplicationBacklog (size : Nat) (h : 0 < size) (masterReplOffset : Int) : Backlog :=
  ⟨.empty (List.replicate size '\x00') (by rwa [List.length_replicate]), masterReplOffset + 1⟩

namespace Server

/-- The link of the slave `id`. -/
def link (m : Server) (id : Nat) : Option Link := m.slaves.find? (·.id = id)

def mapSlaves (m : Server) (f : Link → Link) : Server :=
  { m with
    slaves := m.slaves.map f
    has_backlog := fun h => m.has_backlog fun h' => h (by rw [h', List.map_nil]) }

def filterSlaves (m : Server) (p : Link → Bool) : Server :=
  { m with
    slaves := m.slaves.filter p
    has_backlog := fun h => m.has_backlog fun h' => h (by rw [h', List.filter_nil]) }

/-- `feedReplicationBacklog`, which is called only if there is a backlog. -/
def feedReplicationBacklog (m : Server) (p : List Char) : Server :=
  match m.backlog with
  | none => m
  | some b =>
    let ring := b.ring.write p
    let offset := m.masterReplOffset + p.length
    { m with
      masterReplOffset := offset
      backlog := some ⟨ring, offset - ring.histlen + 1⟩
      stream := m.stream ++ p
      has_backlog := fun _ => rfl }

def feedArg (m : Server) (o : Sds) : Server :=
  ((m.feedReplicationBacklog (lenHeader '$' o.length)).feedReplicationBacklog o).feedReplicationBacklog
    crlf

def feedCommand (m : Server) (argv : List Sds) : Server :=
  argv.foldl feedArg (m.feedReplicationBacklog (lenHeader '*' argv.length))

/-- A command is written to the backlog and to the links, to each of them with `f`. The
`serverAssert` is `has_backlog`. -/
def feedWith (m : Server) (argv : List Sds) (f : Link → Link) : Server :=
  if m.masterhost then m
  else if m.backlog.isNone && m.slaves.isEmpty then m
  else (m.feedCommand argv).mapSlaves f

def replicationFeedSlaves (m : Server) (argv : List Sds) : Server := m.feedWith argv (·.feed argv)

def replicationFeedExSlave (m : Server) (id : Nat) (argv : List Sds) : Server :=
  m.feedWith argv (·.feedEx id argv)

end Server

/-- The bytes that `addReplyReplicationBacklog` hands to `addReplySds`. -/
def Backlog.bytesFrom (b : Backlog) (offset : Int) : List Char :=
  if b.ring.histlen = 0 then [] else b.ring.read (offset - b.off).toNat

def Backlog.addReplyReplicationBacklog (b : Backlog) (c : Link) (offset : Int) : Link :=
  c.addReply (b.bytesFrom offset)

/-- `strcasecmp(a, b) == 0`. -/
def sameId (a b : Sds) : Bool := a.map Char.toLower = b.map Char.toLower

/-- `SYNC`, or `PSYNC replid offset`; the offset may not be a number. -/
inductive SyncRequest where
  | sync
  | psync (replid : Sds) (offset : Option Int)
  deriving DecidableEq

/-- A connection that asks for synchronisation, and its pending output. -/
structure Conn where
  id : Nat
  fd : Int
  port : Nat
  capa : Nat
  pending : List Char
  fd_pos : 0 < fd

def Conn.link (k : Conn) : Link := ⟨k.id, k.fd, k.port, k.capa, .new, .none, 0, k.pending⟩

namespace Server

/-- `masterTryPartialResynchronization`: the link of the new slave, or `none` for a full
resynchronisation. -/
def masterTryPartialResynchronization (m : Server) (c : Link) (replid : Sds) (psyncOffset : Int) :
    Option Link :=
  if !sameId replid m.replid &&
      (!sameId replid m.replid2 || decide (m.secondReplidOffset < psyncOffset)) then none
  else
    match m.backlog with
    | none => none
    | some b =>
      if psyncOffset < b.off ∨ b.off + b.ring.histlen < psyncOffset then none
      else
        let c := { c with flags := { c.flags with slave := true }, replstate := .online }
        some (b.addReplyReplicationBacklog c psyncOffset)

/-- The end of `listAddNodeTail(server.slaves, c)` in `syncCommand`: the backlog is created with the
first slave, with a new replication ID. -/
def addSlave (m : Server) (c : Link) (newid : Sds) : Server :=
  match h : m.backlog with
  | some b => { m with slaves := m.slaves ++ [c], has_backlog := fun _ => by rw [h]; rfl }
  | none =>
    { m with
      slaves := m.slaves ++ [c]
      replid := newid
      replid2 := List.replicate 40 '0'
      secondReplidOffset := -1
      backlog := some (createReplicationBacklog m.backlogSize m.size_pos m.masterReplOffset)
      has_backlog := fun _ => rfl }

/-- The link of a slave that needs a full resynchronisation. If a `BGSAVE` for another slave runs,
and the slave can use it, it takes over what has been queued for that one. -/
def fullResync (m : Server) (c : Link) : Link :=
  let c := { c with flags := { c.flags with slave := true }, replstate := .waitBgsaveStart }
  if m.rdbChild = some .disk then
    match m.slaves.find? (·.replstate = .waitBgsaveEnd) with
    | some s =>
      if c.capa &&& s.capa = s.capa then
        { c with
          out := s.out, psyncInitialOffset := s.psyncInitialOffset, replstate := .waitBgsaveEnd }
      else c
    | none => c
  else c

def attachLink (m : Server) (c : Link) : SyncRequest → Link
  | .psync replid (some offset) =>
    (m.masterTryPartialResynchronization c replid offset).getD (m.fullResync c)
  | _ => m.fullResync c

/-- `syncCommand`. A connection with the `id` of a slave is the link of that slave. -/
def syncCommand (m : Server) (c : Link) (req : SyncRequest) (newid : Sds) : Server :=
  if c.flags.slave || (m.link c.id).isSome then m
  else if m.masterhost && !m.masterConnected then m
  else if c.out ≠ [] then m
  else m.addSlave (m.attachLink c req) newid

/-- `startBgsaveForReplication`: the slaves that wait for it are prepared for the transfer. If it
fails, they are dropped. -/
def startBgsaveForReplication (m : Server) : Option RdbTarget → Server
  | none => m.filterSlaves (·.replstate ≠ .waitBgsaveStart)
  | some target =>
    { m.mapSlaves fun c =>
        if c.replstate = .waitBgsaveStart then
          { c with psyncInitialOffset := m.masterReplOffset, replstate := .waitBgsaveEnd }
        else c with
      rdbChild := some target }

/-- `resizeReplicationBacklog`: the new backlog is empty. -/
def resizeReplicationBacklog (m : Server) (newsize : Nat) : Server :=
  let newsize := max newsize 16384
  if h : m.backlogSize = newsize then m
  else
    have hpos : 0 < newsize := by omega
    { m with
      backlogSize := newsize
      backlog := m.backlog.map fun _ => createReplicationBacklog newsize hpos m.masterReplOffset
      size_pos := hpos
      has_backlog := fun h => by rw [isSome_map]; exact m.has_backlog h }

/-- `replicationCron` frees the backlog when there have been no slaves for a while. -/
def freeReplicationBacklog (m : Server) (newid : Sds) : Server :=
  if h : m.slaves = [] ∧ m.masterhost = false then
    { m with
      replid := newid
      replid2 := List.replicate 40 '0'
      secondReplidOffset := -1
      backlog := none
      has_backlog := fun h' => absurd h.1 h' }
  else m

end Server

/-- What happens at the server. New replication IDs are random. -/
inductive Event where
  /-- `replicationFeedSlaves`. -/
  | feedSlaves (argv : List Sds)
  /-- `replicationFeedExSlave`. -/
  | feedExSlave (id : Nat) (argv : List Sds)
  | sync (k : Conn) (req : SyncRequest) (newid : Sds)
  /-- A `BGSAVE` is started, or fails to start. -/
  | bgsave (target : Option RdbTarget)
  /-- The `BGSAVE` has ended, and the file is sent. -/
  | bgsaveDone
  | putSlaveOnline (id : Nat)
  | freeClient (id : Nat)
  | resizeBacklog (newsize : Nat)
  | freeBacklog (newid : Sds)

namespace Server

def step (m : Server) : Event → Server
  | .feedSlaves argv => m.replicationFeedSlaves argv
  | .feedExSlave id argv => m.replicationFeedExSlave id argv
  | .sync k req newid => m.syncCommand k.link req newid
  | .bgsave target => if m.rdbChild = none then m.startBgsaveForReplication target else m
  | .bgsaveDone =>
    { m.mapSlaves fun c =>
        if c.replstate = .waitBgsaveEnd then { c with replstate := .sendBulk } else c with
      rdbChild := none }
  | .putSlaveOnline id =>
    m.mapSlaves fun c =>
      if c.id = id ∧ c.replstate = .sendBulk then { c with replstate := .online } else c
  | .freeClient id => m.filterSlaves (·.id ≠ id)
  | .resizeBacklog newsize => m.resizeReplicationBacklog newsize
  | .freeBacklog newid => m.freeReplicationBacklog newid

def run (m : Server) (events : List Event) : Server := events.foldl step m

/-- A server that starts: it has no slaves and no backlog. -/
def boot (replid : Sds) (size : Nat) (h : 0 < size) (offset : Int) : Server :=
  ⟨false, false, replid, List.replicate 40 '0', -1, size, none, offset, [], none, [], h, by simp⟩

end Server

/-! ## A command on a link -/

namespace Link

variable {c : Link} {argv : List Sds} {p : List Char}

/-- The link of a slave. -/
structure Wired (c : Link) : Prop where
  flags : c.flags = .ofSlave c.flags.underFeed
  fd : 0 < c.fd

@[simp] theorem queue_queue (p p' : List Char) : (c.queue p).queue p' = c.queue (p ++ p') := by
  simp only [queue, append_assoc]

theorem addReply_ofSlave_true (hf : c.flags = .ofSlave true) (hfd : 0 < c.fd) (p : List Char) :
    c.addReply p = c.queue p := by
  have hok : c.prepareClientToWrite = true := by
    simp [prepareClientToWrite, hf, Flags.ofSlave, Flags.new, Int.not_le.mpr hfd]
  simp [addReply, hok, hf, Flags.ofSlave, Flags.new]

theorem addReply_eq_self (hlua : c.flags.lua = false) (hslave : c.flags.slave = true)
    (hfeed : c.flags.underFeed = false) (p : List Char) : c.addReply p = c := by
  have hok : c.prepareClientToWrite = false := by
    simp [prepareClientToWrite, hlua, hslave, hfeed]
  simp [addReply, hok]

theorem addReply_ofSlave_false (hf : c.flags = .ofSlave false) (p : List Char) : c.addReply p = c :=
  addReply_eq_self (by rw [hf]; rfl) (by rw [hf]; rfl) (by rw [hf]; rfl) p

theorem addReplyBulk_eq (hf : c.flags = .ofSlave true) (hfd : 0 < c.fd) (o : Sds) :
    c.addReplyBulk o = c.queue (respArg o) := by
  have h : ∀ p p', (c.queue p).addReply p' = c.queue (p ++ p') := fun p p' => by
    rw [addReply_ofSlave_true (c := c.queue p) hf hfd, queue_queue]
  rw [addReplyBulk, addReply_ofSlave_true hf hfd, h, h, respArg]

theorem foldl_addReplyBulk (hf : c.flags = .ofSlave true) (hfd : 0 < c.fd) (argv : List Sds)
    (p : List Char) : argv.foldl addReplyBulk (c.queue p) =
      c.queue (p ++ argv.flatMap respArg) := by
  induction argv generalizing p with
  | nil => simp
  | cons o argv ih =>
    rw [foldl_cons, addReplyBulk_eq (c := c.queue p) hf hfd, queue_queue, ih,
      flatMap_cons, append_assoc]

theorem feed_eq (hc : c.Wired) (hs : c.replstate ≠ .waitBgsaveStart) :
    c.feed argv = (c.queue (resp argv)).setUnderFeed false := by
  have hf : (c.setUnderFeed true).flags = .ofSlave true := by rw [setUnderFeed, hc.flags]; rfl
  rw [feed, if_neg (by exact hs), addReplyMultiBulkLen, addReply_ofSlave_true hf hc.fd,
    foldl_addReplyBulk hf hc.fd]
  rfl

theorem feed_skip (hs : c.replstate = .waitBgsaveStart) : c.feed argv = c.setUnderFeed true :=
  if_pos hs

theorem id_addReply (c : Link) (p : List Char) : (c.addReply p).id = c.id := by
  rw [addReply]
  split
  · rfl
  · split <;> rfl

theorem id_foldl_addReplyBulk (c : Link) (argv : List Sds) :
    (argv.foldl addReplyBulk c).id = c.id := by
  induction argv generalizing c with
  | nil => rfl
  | cons o argv ih => rw [foldl_cons, ih, addReplyBulk, id_addReply, id_addReply, id_addReply]

theorem id_feed (c : Link) (argv : List Sds) : (c.feed argv).id = c.id := by
  rw [feed]
  split
  · rfl
  · exact (id_foldl_addReplyBulk _ _).trans (id_addReply _ _)

theorem id_feedEx (c : Link) (id : Nat) (argv : List Sds) : (c.feedEx id argv).id = c.id := by
  rw [feedEx]
  split
  · rfl
  · exact c.id_feed argv

theorem Wired.setUnderFeed (hc : c.Wired) (u : Bool) : (c.setUnderFeed u).Wired :=
  ⟨by rw [Link.setUnderFeed, hc.flags]; rfl, hc.fd⟩

theorem Wired.feed (hc : c.Wired) : (c.feed argv).Wired := by
  by_cases hs : c.replstate = .waitBgsaveStart
  · rw [feed_skip hs]
    exact hc.setUnderFeed true
  rw [feed_eq hc hs]
  exact Wired.setUnderFeed (c := c.queue _) ⟨hc.flags, hc.fd⟩ false

theorem Wired.feedEx (hc : c.Wired) {id : Nat} : (c.feedEx id argv).Wired := by
  rw [Link.feedEx]
  split
  · exact hc.setUnderFeed true
  · exact hc.feed

end Link

/-! ## Invariant -/

namespace Server

variable {m m' m'' : Server} {p p' : List Char} {argv : List Sds}

/-- The server is a master, its backlog holds the end of the stream, and its links are those of
slaves. -/
structure Ok (m : Server) : Prop where
  master : m.masterhost = false
  backlog : ∀ b, m.backlog = some b → ∃ s, s <:+ m.stream ∧ b.ring.Holds s ∧
    b.off + b.ring.histlen = m.masterReplOffset + 1
  wired : ∀ c ∈ m.slaves, c.Wired

/-- The stream has grown by `p`. -/
structure Grown (m m' : Server) (p : List Char) : Prop where
  stream : m'.stream = m.stream ++ p
  offset : m'.masterReplOffset = m.masterReplOffset + p.length

theorem Grown.refl (m : Server) : m.Grown m [] := ⟨by simp, by simp⟩

theorem Grown.trans (h : m.Grown m' p) (h' : m'.Grown m'' p') : m.Grown m'' (p ++ p') := by
  constructor
  · rw [h'.stream, h.stream, append_assoc]
  rw [h'.offset, h.offset, length_append]
  omega

/-- `p` has been written to the backlog. -/
structure Wrote (m m' : Server) (p : List Char) : Prop extends Grown m m' p where
  slaves : m'.slaves = m.slaves
  backlog : m'.backlog.isSome
  ok : m.Ok → m'.Ok

theorem Wrote.trans (h : m.Wrote m' p) (h' : m'.Wrote m'' p') : m.Wrote m'' (p ++ p') :=
  ⟨h.toGrown.trans h'.toGrown, h'.slaves.trans h.slaves, h'.backlog, fun hm => h'.ok (h.ok hm)⟩

theorem wrote_feedReplicationBacklog (h : m.backlog.isSome) (p : List Char) :
    m.Wrote (m.feedReplicationBacklog p) p := by
  obtain ⟨b, hb⟩ := isSome_iff_exists.mp h
  rw [feedReplicationBacklog]
  split
  · next hnone => simp [hnone] at hb
  next b' hb' =>
  refine ⟨⟨rfl, rfl⟩, rfl, rfl, fun hm => ⟨hm.master, fun b1 hb1 => ?_, hm.wired⟩⟩
  obtain ⟨s, hs, hholds, -⟩ := hm.backlog b' hb'
  simp only [Option.some.injEq] at hb1
  subst hb1
  refine ⟨s ++ p, ?_, hholds.write p, ?_⟩
  · obtain ⟨t, ht⟩ := hs
    exact ⟨t, by rw [← append_assoc, ht]⟩
  show m.masterReplOffset + p.length - (b'.ring.write p).histlen + 1 +
    (b'.ring.write p).histlen = m.masterReplOffset + p.length + 1
  omega

theorem wrote_feedArg (h : m.backlog.isSome) (o : Sds) : m.Wrote (m.feedArg o) (respArg o) := by
  have h1 := wrote_feedReplicationBacklog h (lenHeader '$' o.length)
  have h2 := wrote_feedReplicationBacklog h1.backlog o
  exact (h1.trans h2).trans (wrote_feedReplicationBacklog h2.backlog crlf)

theorem wrote_foldl_feedArg (h : m.Wrote m' p) (argv : List Sds) : m.Wrote (argv.foldl feedArg m')
      (p ++ argv.flatMap respArg) := by
  induction argv generalizing m' p with
  | nil => simpa using h
  | cons o argv ih =>
    rw [foldl_cons, flatMap_cons, ← append_assoc]
    exact ih (h.trans (wrote_feedArg h.backlog o))

theorem wrote_feedCommand (h : m.backlog.isSome) (argv : List Sds) :
    m.Wrote (m.feedCommand argv) (resp argv) :=
  wrote_foldl_feedArg (wrote_feedReplicationBacklog h _) argv

variable {f : Link → Link} {offset : Int}

theorem Ok.mapSlaves (hm : m.Ok) (hf : ∀ c, c.Wired → (f c).Wired) : (m.mapSlaves f).Ok := by
  refine ⟨hm.master, hm.backlog, fun c hc => ?_⟩
  obtain ⟨c0, hc0, rfl⟩ := mem_map.mp hc
  exact hf c0 (hm.wired c0 hc0)

theorem Ok.filterSlaves (hm : m.Ok) (p : Link → Bool) : (m.filterSlaves p).Ok :=
  ⟨hm.master, hm.backlog, fun c hc => hm.wired c (mem_of_mem_filter hc)⟩

theorem holds_createReplicationBacklog (h : 0 < size)
    (hb : createReplicationBacklog size h offset = b) :
    ∃ s, s <:+ m.stream ∧ b.ring.Holds s ∧ b.off + b.ring.histlen = offset + 1 := by
  subst hb
  exact ⟨[], nil_suffix, CircularBuffer.empty_holds _ _, by
    simp [createReplicationBacklog, CircularBuffer.empty]⟩

theorem Ok.addSlave (hm : m.Ok) (hc : c.Wired) (newid : Sds) : (m.addSlave c newid).Ok := by
  have hwired : ∀ c' ∈ m.slaves ++ [c], c'.Wired := by
    intro c' hc'
    rcases mem_append.mp hc' with hc' | hc'
    · exact hm.wired c' hc'
    · rwa [mem_singleton.mp hc']
  rw [Server.addSlave]
  split
  · exact ⟨hm.master, hm.backlog, hwired⟩
  · exact ⟨hm.master, fun b hb => holds_createReplicationBacklog _ (Option.some.inj hb), hwired⟩

/-- The link of a slave that continues: the backlog is not queued, because the link is not being
fed. -/
theorem masterTryPartialResynchronization_eq {k : Conn} {replid : Sds} {c : Link}
    (h : m.masterTryPartialResynchronization k.link replid offset = some c) :
    c = { k.link with flags := .ofSlave false, replstate := .online } := by
  rw [masterTryPartialResynchronization] at h
  split at h
  · simp at h
  split at h
  · simp at h
  split at h
  · simp at h
  rw [Option.some.injEq, Backlog.addReplyReplicationBacklog,
    Link.addReply_ofSlave_false (by rfl)] at h
  exact h.symm

theorem wired_fullResync (k : Conn) : (m.fullResync k.link).Wired := by
  have hlink : ∀ st off out, ({ k.link with
      flags := .ofSlave false, replstate := st, psyncInitialOffset := off, out := out } : Link).Wired :=
    fun _ _ _ => ⟨rfl, k.fd_pos⟩
  rw [fullResync]
  split
  · split
    · split <;> exact hlink _ _ _
    · exact hlink _ _ _
  · exact hlink _ _ _

theorem wired_attachLink (k : Conn) (req : SyncRequest) : (m.attachLink k.link req).Wired := by
  cases req with
  | sync => exact wired_fullResync k
  | psync replid offset =>
    obtain _ | offset := offset
    · exact wired_fullResync k
    rw [attachLink]
    rcases hc : m.masterTryPartialResynchronization k.link replid offset with _ | c
    · exact wired_fullResync k
    rw [getD_some, masterTryPartialResynchronization_eq hc]
    exact ⟨rfl, k.fd_pos⟩

theorem syncCommand_cases (m : Server) (k : Conn) (req : SyncRequest) (newid : Sds) :
    m.syncCommand k.link req newid = m ∨ m.link k.id = none ∧
        m.syncCommand k.link req newid = m.addSlave (m.attachLink k.link req) newid := by
  rw [syncCommand]
  split
  · exact .inl rfl
  next hid =>
  split
  · exact .inl rfl
  split
  · exact .inl rfl
  refine .inr ⟨?_, rfl⟩
  rw [Bool.or_eq_true, not_or, Bool.not_eq_true, Bool.not_eq_true, isSome_eq_false_iff,
    isNone_iff_eq_none] at hid
  exact hid.2

theorem Ok.startBgsave (hm : m.Ok) (target : Option RdbTarget) :
    (m.startBgsaveForReplication target).Ok := by
  obtain _ | target := target
  · exact hm.filterSlaves _
  have := hm.mapSlaves (f := fun c => if c.replstate = .waitBgsaveStart then
    { c with psyncInitialOffset := m.masterReplOffset, replstate := .waitBgsaveEnd } else c)
    fun c hc => by split <;> exact ⟨hc.flags, hc.fd⟩
  exact ⟨this.master, this.backlog, this.wired⟩

theorem feedWith_cases (hm : m.masterhost = false) (argv : List Sds) (f : Link → Link) :
    m.backlog = none ∧ m.feedWith argv f = m ∨
      m.backlog.isSome ∧ m.feedWith argv f = (m.feedCommand argv).mapSlaves f := by
  rw [feedWith, if_neg (by simp [hm])]
  rcases hb : m.backlog with _ | b
  · have hslaves : m.slaves = [] := by
      by_contra h
      simpa [hb] using m.has_backlog h
    exact .inl ⟨rfl, by simp [hslaves]⟩
  exact .inr ⟨rfl, by simp⟩

theorem Ok.feedWith (hm : m.Ok) (hf : ∀ c, c.Wired → (f c).Wired) : (m.feedWith argv f).Ok := by
  rcases feedWith_cases hm.master argv f with ⟨-, h⟩ | ⟨hb, h⟩
  · rwa [h]
  rw [h]
  exact ((wrote_feedCommand hb argv).ok hm).mapSlaves hf

theorem Ok.step (hm : m.Ok) (e : Event) : (m.step e).Ok := by
  cases e with
  | feedSlaves argv => exact hm.feedWith fun _ hc => hc.feed
  | feedExSlave id argv => exact hm.feedWith fun _ hc => hc.feedEx
  | sync k req newid =>
    rw [Server.step]
    rcases syncCommand_cases m k req newid with h | ⟨-, h⟩
    · rwa [h]
    rw [h]
    exact hm.addSlave (wired_attachLink k req) newid
  | bgsave target =>
    rw [Server.step]
    split
    · exact hm.startBgsave target
    · exact hm
  | bgsaveDone =>
    have := hm.mapSlaves (f := fun c => if c.replstate = .waitBgsaveEnd then
      { c with replstate := .sendBulk } else c) fun c hc => by split <;> exact ⟨hc.flags, hc.fd⟩
    exact ⟨this.master, this.backlog, this.wired⟩
  | putSlaveOnline id => exact hm.mapSlaves fun c hc => by split <;> exact ⟨hc.flags, hc.fd⟩
  | freeClient id => exact hm.filterSlaves _
  | resizeBacklog newsize =>
    rw [Server.step, resizeReplicationBacklog]
    split
    · exact hm
    refine ⟨hm.master, fun b hb => ?_, hm.wired⟩
    obtain ⟨b0, -, hb0⟩ := map_eq_some_iff.mp hb
    exact holds_createReplicationBacklog _ hb0
  | freeBacklog newid =>
    rw [Server.step, freeReplicationBacklog]
    split
    · exact ⟨hm.master, fun b hb => by simp at hb, hm.wired⟩
    · exact hm

theorem Ok.run (hm : m.Ok) (events : List Event) : (m.run events).Ok := by
  induction events generalizing m with
  | nil => exact hm
  | cons e events ih => exact ih (hm.step e)

theorem boot_ok (replid : Sds) (size : Nat) (h : 0 < size) (offset : Int) :
    (boot replid size h offset).Ok :=
  ⟨rfl, fun b hb => by simp [boot] at hb, fun c hc => by simp [boot] at hc⟩

end Server

/-! ## Runs -/

namespace Event

def bytes : Event → List Char
  | feedSlaves argv | feedExSlave _ argv => resp argv
  | _ => []

def originator : Event → Option Nat
  | feedExSlave id _ => some id
  | _ => none

/-- The bytes that are queued for slave `i`. -/
def bytesTo (i : Nat) (e : Event) : List Char := if e.originator = some i then [] else e.bytes

end Event

namespace Server

variable {m : Server} {e : Event} {i : Nat} {c : Link}

theorem grown_feedWith (hm : m.masterhost = false) (argv : List Sds) (f : Link → Link) :
    m.Grown (m.feedWith argv f) (if m.backlog.isSome then resp argv else []) := by
  rcases feedWith_cases hm argv f with ⟨hb, h⟩ | ⟨hb, h⟩
  · rw [h, hb]
    exact .refl m
  rw [h, if_pos hb]
  exact ⟨(wrote_feedCommand hb argv).stream, (wrote_feedCommand hb argv).offset⟩

theorem Grown.same [Decidable b] (hs : m'.stream = m.stream)
    (ho : m'.masterReplOffset = m.masterReplOffset) : m.Grown m' (if b then [] else []) := by
  rw [ite_self]
  exact ⟨by rw [hs, append_nil], by rw [ho, length_nil, Int.natCast_zero, Int.add_zero]⟩

theorem grown_step (hm : m.Ok) (e : Event) :
    m.Grown (m.step e) (if m.backlog.isSome then e.bytes else []) := by
  cases e with
  | feedSlaves argv => exact grown_feedWith hm.master argv _
  | feedExSlave id argv => exact grown_feedWith hm.master argv _
  | sync k req newid =>
    rw [step]
    rcases syncCommand_cases m k req newid with h | ⟨-, h⟩
    · rw [h]
      exact .same rfl rfl
    rw [h, addSlave]
    split <;> exact .same rfl rfl
  | bgsave target =>
    rw [step]
    split
    · cases target <;> exact .same rfl rfl
    · exact .same rfl rfl
  | bgsaveDone => exact .same rfl rfl
  | putSlaveOnline id => exact .same rfl rfl
  | freeClient id => exact .same rfl rfl
  | resizeBacklog newsize =>
    rw [step, resizeReplicationBacklog]
    split <;> exact .same rfl rfl
  | freeBacklog newid =>
    rw [step, freeReplicationBacklog]
    split <;> exact .same rfl rfl

theorem grown_run (hm : m.Ok) (events : List Event) : ∃ p, m.Grown (m.run events) p := by
  induction events generalizing m with
  | nil => exact ⟨[], .refl m⟩
  | cons e events ih =>
    obtain ⟨p, hp⟩ := ih (hm.step e)
    exact ⟨_, (grown_step hm e).trans hp⟩

variable {f : Link → Link}

theorem link_mapSlaves (hf : ∀ c, (f c).id = c.id) (i : Nat) :
    (m.mapSlaves f).link i = (m.link i).map f := by
  simp only [link, mapSlaves, find?_map, Function.comp_def, hf]

theorem backlog_of_link (hc : m.link i = some c) : m.backlog.isSome :=
  m.has_backlog (ne_nil_of_mem (mem_of_find?_eq_some hc))

theorem id_of_link (hc : m.link i = some c) : c.id = i := by
  simpa using find?_some hc

theorem link_addSlave (hc : m.link i = some c) (k : Link) (newid : Sds) :
    (m.addSlave k newid).link i = some c := by
  have h : (m.slaves ++ [k]).find? (·.id = i) = some c := by
    rw [find?_append, show m.slaves.find? (·.id = i) = some c from hc, some_or]
  rw [addSlave]
  split <;> exact h

theorem link_feedWith (hm : m.masterhost = false) (hc : m.link i = some c)
    (hf : ∀ c, (f c).id = c.id) (argv : List Sds) : (m.feedWith argv f).link i = some (f c) := by
  rcases feedWith_cases hm argv f with ⟨hb, h⟩ | ⟨hb, h⟩
  · simpa [hb] using backlog_of_link hc
  have hlink : (m.feedCommand argv).link i = some c := by
    rw [link, (wrote_feedCommand hb argv).slaves]
    exact hc
  rw [h, link_mapSlaves hf, hlink, map_some]

/-- A slave that has been prepared for the transfer: it is fed. -/
def Fed (m : Server) (i : Nat) (c : Link) : Prop :=
  m.link i = some c ∧ c.replstate ≠ .waitBgsaveStart

theorem Fed.mapSlaves (hc : m.Fed i c) (hf : ∀ c, (f c).id = c.id)
    (hs : (f c).replstate ≠ .waitBgsaveStart) : (m.mapSlaves f).Fed i (f c) :=
  ⟨by rw [link_mapSlaves hf, hc.1, map_some], hs⟩

theorem Fed.filterSlaves (hc : m.Fed i c) (hp : p c = true) : (m.filterSlaves p).Fed i c := by
  refine ⟨?_, hc.2⟩
  obtain ⟨hid, as, bs, hslaves, has⟩ := find?_eq_some_iff_append.mp hc.1
  rw [link, Server.filterSlaves, find?_filter]
  refine find?_eq_some_iff_append.mpr ⟨by rw [hp, hid]; rfl, as, bs, hslaves, fun a ha => ?_⟩
  have := has a ha
  simp only [Bool.not_eq_true', decide_eq_false_iff_not] at this ⊢
  exact fun h => this (of_decide_eq_true h.2)

theorem Fed.step (hc : m.Fed i c) (hm : m.Ok) (he : e ≠ .freeClient i) :
    ∃ c', (m.step e).Fed i c' ∧ c'.out = c.out ++ e.bytesTo i := by
  have hwired := hm.wired c (mem_of_find?_eq_some hc.1)
  have hid := id_of_link hc.1
  have hsame : ∀ {m' : Server}, m'.Fed i c → ∃ c', m'.Fed i c' ∧ c'.out = c.out ++ [] :=
    fun h => ⟨c, h, (append_nil _).symm⟩
  cases e with
  | feedSlaves argv =>
    refine ⟨c.feed argv, ⟨link_feedWith hm.master hc.1 (·.id_feed argv) argv, ?_⟩, ?_⟩
    · rw [Link.feed_eq hwired hc.2]
      exact hc.2
    rw [Link.feed_eq hwired hc.2]
    rfl
  | feedExSlave id argv =>
    have hlink := link_feedWith hm.master hc.1 (·.id_feedEx id argv) argv
    refine ⟨c.feedEx id argv, ⟨hlink, ?_⟩, ?_⟩ <;> rw [Link.feedEx, hid] <;> split
    · exact hc.2
    · rw [Link.feed_eq hwired hc.2]
      exact hc.2
    · next h =>
      rw [Event.bytesTo, if_pos (by rw [h]; rfl), append_nil]
      rfl
    next h =>
    rw [Link.feed_eq hwired hc.2, Event.bytesTo,
      if_neg (by simpa [Event.originator, eq_comm] using h)]
    rfl
  | sync k req newid =>
    rw [Server.step]
    rcases syncCommand_cases m k req newid with h | ⟨-, h⟩
    · rw [h]
      exact hsame hc
    rw [h]
    exact hsame ⟨link_addSlave hc.1 _ _, hc.2⟩
  | bgsave target =>
    rw [Server.step]
    split
    · obtain _ | target := target
      · exact hsame (hc.filterSlaves (by simpa using hc.2))
      refine hsame ?_
      have := hc.mapSlaves (f := fun c => if c.replstate = .waitBgsaveStart then
        { c with psyncInitialOffset := m.masterReplOffset, replstate := .waitBgsaveEnd } else c)
        (fun c => by split <;> rfl) (by rw [if_neg hc.2]; exact hc.2)
      rw [if_neg hc.2] at this
      exact this
    · exact hsame hc
  | bgsaveDone =>
    have hfed := hc.mapSlaves (f := fun c => if c.replstate = .waitBgsaveEnd then
      { c with replstate := .sendBulk } else c) (fun c => by split <;> rfl)
      (by split; exacts [by simp, hc.2])
    exact ⟨_, hfed, by split <;> exact (append_nil _).symm⟩
  | putSlaveOnline id =>
    refine ⟨_, hc.mapSlaves (fun c => by split <;> rfl) (by split; exacts [by simp, hc.2]), ?_⟩
    split <;> exact (append_nil _).symm
  | freeClient id =>
    refine hsame (hc.filterSlaves ?_)
    rw [hid]
    simpa using fun h : i = id => he (by rw [h])
  | resizeBacklog newsize =>
    rw [Server.step, resizeReplicationBacklog]
    split <;> exact hsame hc
  | freeBacklog newid =>
    rw [Server.step, freeReplicationBacklog]
    split <;> exact hsame hc

/-- What is queued for a slave in a run, and what is written to the stream. -/
theorem Fed.run (hc : m.Fed i c) (hm : m.Ok) (he : ∀ e ∈ events, e ≠ .freeClient i) :
    ∃ c', (m.run events).Fed i c' ∧ c'.out = c.out ++ events.flatMap (·.bytesTo i) ∧
      m.Grown (m.run events) (events.flatMap (·.bytes)) := by
  induction events generalizing m c with
  | nil => exact ⟨c, hc, by simp, .refl m⟩
  | cons e events ih =>
    obtain ⟨c1, hc1, hout1⟩ := hc.step hm (he e (by simp))
    have hgrown := grown_step hm e
    rw [if_pos (backlog_of_link hc.1)] at hgrown
    obtain ⟨c2, hc2, hout2, hgrown2⟩ := ih hc1 (hm.step e) fun e' h => he e' (by simp [h])
    refine ⟨c2, hc2, ?_, ?_⟩
    · rw [hout2, hout1, flatMap_cons, append_assoc]
    rw [flatMap_cons]
    exact hgrown.trans hgrown2

end Server

/-! ## Links as channels of commands -/

namespace Link

variable {c : Link} {argv : List Sds}

/-- The slave of a link. -/
def toSlave (c : Link) : Slave := ⟨c.id, c.port, c.replstate = .waitBgsaveStart⟩

theorem out_feed_ne_iff (hc : c.Wired) :
    (c.feed argv).out ≠ c.out ↔ c.toSlave.waitBgsave = false := by
  rw [toSlave, decide_eq_false_iff_not]
  by_cases hs : c.replstate = .waitBgsaveStart
  · rw [feed_skip hs]
    exact iff_of_false (fun h => h rfl) fun h => h hs
  rw [feed_eq hc hs]
  exact iff_of_true (fun h => resp_ne_nil argv (append_right_eq_self.mp h)) hs

theorem out_feedEx_ne_iff (hc : c.Wired) {id : Nat} :
    (c.feedEx id argv).out ≠ c.out ↔ c.toSlave.id ≠ id ∧ c.toSlave.waitBgsave = false := by
  rw [feedEx]
  split
  · next h => exact iff_of_false (fun h' => h' rfl) fun h' => h'.1 h
  · next h => rw [out_feed_ne_iff hc]; exact ⟨fun h' => ⟨h, h'⟩, fun h' => h'.2⟩

end Link

variable {m : Server} {n : Node}

variable (hm : m.Ok) (hn : n.masterhost = false) (hs : n.slaves = m.slaves.map Link.toSlave)
include hm hn hs

/-- The destinations of `replicationFeedSlaves` are the links on which the command is queued. -/
theorem dests_replicationFeedSlaves (argv : List Sds) : UfsRedis.replicationFeedSlaves n =
      (m.slaves.filter fun c => (c.feed argv).out ≠ c.out).map (Dest.slave ·.id) := by
  rw [UfsRedis.replicationFeedSlaves, if_neg (by simp [hn]), hs, List.filter_map, List.map_map]
  refine congrArg _ (filter_congr fun c hc => ?_)
  rw [Bool.eq_iff_iff, decide_eq_true_iff, Link.out_feed_ne_iff (hm.wired c hc),
    Function.comp_apply, Bool.not_eq_true']

theorem dests_replicationFeedExSlave (id : Nat) (argv : List Sds) :
    UfsRedis.replicationFeedExSlave n id =
      (m.slaves.filter fun c => (c.feedEx id argv).out ≠ c.out).map (Dest.slave ·.id) := by
  rw [UfsRedis.replicationFeedExSlave, if_neg (by simp [hn]), hs, List.filter_map, List.map_map]
  refine congrArg _ (filter_congr fun c hc => ?_)
  rw [Bool.eq_iff_iff, decide_eq_true_iff, Link.out_feedEx_ne_iff (hm.wired c hc),
    Function.comp_apply, decide_eq_true_iff, Bool.not_eq_true']

end UfsRedis.Repl
