import Mathlib.Algebra.Group.Nat.Defs
import Mathlib.Data.List.Basic

/-!
# Elections of the cluster

`src/cluster.c`: a slave whose master has failed asks all nodes for their votes
(`clusterHandleSlaveFailover`), the masters that serve slots vote
(`clusterSendFailoverAuthIfNeeded`), and the slave that gets a quorum of `FAILOVER_AUTH_ACK` packets
replaces its master.

All nodes agree on the roles and on the slots (`Topology`), so the masters that vote are fixed. What
else a function reads comes with the event: the clock, the nodes that are flagged as failing, the
manual failover. A packet that has been sent is delivered at any later time, or never. A node can
stop at any time; it starts with what `clusterSaveConfig` has written last.
-/

namespace UfsRedis.Cluster

/-! ## The data -/

/-- The nodes, the master of each slave, the slots of each node, and the node of each slot. -/
structure Topology where
  nodes : List Nat
  nodup : nodes.Nodup
  slaveof : Nat → Option Nat
  slotsOf : Nat → List Nat
  slots : Nat → Option Nat

namespace Topology

variable (T : Topology)

/-- The masters that serve slots: `nodeIsMaster(node) && node->numslots`. -/
def voters : List Nat := T.nodes.filter fun i => T.slaveof i = none ∧ T.slotsOf i ≠ []

/-- `server.cluster->size`, as `clusterUpdateState` computes it. -/
def size : Nat := T.voters.length

def neededQuorum : Nat := T.size / 2 + 1

end Topology

/-- The options that the failover reads. -/
structure Config where
  nodeTimeout : Int
  slaveValidityFactor : Int
  replPingSlavePeriod : Int

def Config.authTimeout (cfg : Config) : Int :=
  if cfg.nodeTimeout * 2 < 2000 then 2000 else cfg.nodeTimeout * 2

def Config.authRetryTime (cfg : Config) : Int := cfg.authTimeout * 2

/-- `mstime()`: the clock counts from 1970, so the retry time has passed since its zero. -/
structure Clock (cfg : Config) where
  now : Int
  late : cfg.authRetryTime < now

inductive MsgType where
  | failoverAuthRequest
  | failoverAuthAck
  | other
  deriving DecidableEq, Repr

/-- The fields of `clusterMsg` that are read here, with the node it goes to. -/
structure Packet where
  type : MsgType
  sender : Nat
  dest : Nat
  currentEpoch : Nat
  configEpoch : Nat
  myslots : List Nat
  forceAck : Bool
  deriving DecidableEq, Repr

/-- What `clusterSaveConfig` writes. -/
structure Saved where
  currentEpoch : Nat
  lastVoteEpoch : Nat
  configEpoch : Nat → Nat
  promoted : Bool

/-- `clusterState` of a node, and its file. `configEpoch` and `votedTime` are fields of the nodes that
it knows. `promoted` says that the node was a slave and has replaced its master. -/
structure Node where
  currentEpoch : Nat
  lastVoteEpoch : Nat
  configEpoch : Nat → Nat
  votedTime : Nat → Int
  failoverAuthTime : Int
  failoverAuthCount : Nat
  failoverAuthSent : Bool
  failoverAuthRank : Int
  failoverAuthEpoch : Nat
  handleFailover : Bool
  saveConfig : Bool
  promoted : Bool
  saved : Saved

namespace Node

variable (T : Topology) (i : Nat) (n : Node)

/-- `myself->slaveof`. -/
def slaveof : Option Nat := if n.promoted then none else T.slaveof i

/-- `clusterBuildMessageHdr`. A slave sends the slots and the epoch of its master. -/
def header (type : MsgType) (forceAck : Bool) (dest : Nat) : Packet :=
  let master := (n.slaveof T i).getD i
  ⟨type, i, dest, n.currentEpoch, n.configEpoch master, T.slotsOf master, forceAck⟩

/-- `clusterBroadcastMessage`. -/
def broadcast (type : MsgType) (forceAck : Bool) : List Packet :=
  (T.nodes.filter (· ≠ i)).map (n.header T i type forceAck)

/-- `clusterBroadcastPong(CLUSTER_BROADCAST_LOCAL_SLAVES)`. -/
def broadcastLocalSlaves : List Packet :=
  (T.nodes.filter fun j => j ≠ i ∧ T.slaveof j ≠ none ∧ T.slaveof j = n.slaveof T i).map
    (n.header T i .other false)

def clusterSaveConfig : Node :=
  { n with
    saved := ⟨n.currentEpoch, n.lastVoteEpoch, n.configEpoch, n.promoted⟩
    saveConfig := false }

def clusterGetMaxEpoch : Nat :=
  max ((T.nodes.map n.configEpoch).foldl max 0) n.currentEpoch

/-- `clusterInit` and `clusterLoadConfig`. `clusterInit` does not write `failover_auth_sent`. -/
def restart (sent : Bool) : Node :=
  let n : Node :=
    { currentEpoch := n.saved.currentEpoch
      lastVoteEpoch := n.saved.lastVoteEpoch
      configEpoch := n.saved.configEpoch
      votedTime := fun _ => 0
      failoverAuthTime := 0
      failoverAuthCount := 0
      failoverAuthSent := sent
      failoverAuthRank := 0
      failoverAuthEpoch := 0
      handleFailover := false
      saveConfig := false
      promoted := n.saved.promoted
      saved := n.saved }
  if n.clusterGetMaxEpoch T > n.currentEpoch then
    { n with currentEpoch := n.clusterGetMaxEpoch T }
  else n

end Node

/-! ## A packet -/

/-- What a node knows when it receives a packet: the clock, the nodes that are flagged as failing,
and whether it has a link to the sender. -/
structure PacketView (cfg : Config) where
  clock : Clock cfg
  failed : Nat → Bool
  linked : Bool

section

variable (T : Topology) (cfg : Config)

/-- The loop of `clusterSendFailoverAuthIfNeeded` over the slots: one of them is served by a master
with a greater `configEpoch`. -/
def slotsRefused (n : Node) (request : Packet) : Bool :=
  request.myslots.any fun j =>
    match T.slots j with
    | none => false
    | some owner => decide (request.configEpoch < n.configEpoch owner)

/-- `clusterSendFailoverAuthIfNeeded` at the node `i`. The second result is the packet that is
sent. -/
def clusterSendFailoverAuthIfNeeded (v : PacketView cfg) (i : Nat) (n : Node) (request : Packet) :
    Node × Option Packet :=
  if i ∉ T.voters then (n, none)
  else if request.currentEpoch < n.currentEpoch then (n, none)
  else if n.lastVoteEpoch = n.currentEpoch then (n, none)
  else match T.slaveof request.sender with
    | none => (n, none)
    | some master =>
      if !v.failed master && !request.forceAck then (n, none)
      else if v.clock.now - n.votedTime master < cfg.nodeTimeout * 2 then (n, none)
      else if slotsRefused T n request then (n, none)
      else
        let ack :=
          if v.linked then some (n.header T i .failoverAuthAck false request.sender) else none
        -- No save of the configuration is scheduled here.
        ({ n with
            lastVoteEpoch := n.currentEpoch
            votedTime := fun j => if j = master then v.clock.now else n.votedTime j }, ack)

/-- The first part of `clusterProcessPacket`: the epochs of the sender. -/
def updateEpochs (n : Node) (p : Packet) : Node :=
  let n := if p.currentEpoch > n.currentEpoch then { n with currentEpoch := p.currentEpoch } else n
  if p.configEpoch > n.configEpoch p.sender then
    { n with
      configEpoch := fun j => if j = p.sender then p.configEpoch else n.configEpoch j
      saveConfig := true }
  else n

/-- `clusterProcessPacket` at the node `i`. -/
def clusterProcessPacket (v : PacketView cfg) (i : Nat) (n : Node) (p : Packet) :
    Node × Option Packet :=
  let n := updateEpochs n p
  match p.type with
  | .failoverAuthRequest => clusterSendFailoverAuthIfNeeded T cfg v i n p
  | .failoverAuthAck =>
    if p.sender ∈ T.voters ∧ p.currentEpoch ≥ n.failoverAuthEpoch then
      ({ n with failoverAuthCount := n.failoverAuthCount + 1, handleFailover := true }, none)
    else (n, none)
  | .other => (n, none)

/-! ## The election -/

/-- What `clusterHandleSlaveFailover` reads: the clock, whether the master is flagged as failing, how
old the data is, `random() % 500`, `clusterGetSlaveRank()`, and the manual failover. -/
structure FailoverView (cfg : Config) where
  clock : Clock cfg
  masterFailed : Bool
  dataAge : Int
  random : Nat
  rank : Nat
  mfEnd : Bool
  mfCanStart : Bool

/-- What a call does: the node after it, the packets that are sent, and whether the election is won. -/
structure Outcome where
  node : Node
  packets : List Packet
  won : Bool

/-- The test of `clusterHandleSlaveFailover` on the age of the data. -/
def tooOld (v : FailoverView cfg) : Bool :=
  let dataAge := if v.dataAge > cfg.nodeTimeout then v.dataAge - cfg.nodeTimeout else v.dataAge
  decide (cfg.slaveValidityFactor ≠ 0 ∧
    dataAge > cfg.replPingSlavePeriod * 1000 + cfg.nodeTimeout * cfg.slaveValidityFactor)

def scheduleElection (v : FailoverView cfg) (i : Nat) (n : Node) : Outcome :=
  let n :=
    { n with
      failoverAuthTime := v.clock.now + 500 + v.random + v.rank * 1000
      failoverAuthCount := 0
      failoverAuthSent := false
      failoverAuthRank := v.rank }
  let n := if v.mfEnd then { n with failoverAuthTime := v.clock.now, failoverAuthRank := 0 } else n
  ⟨n, n.broadcastLocalSlaves T i, false⟩

def updateRank (v : FailoverView cfg) (n : Node) : Node :=
  if n.failoverAuthSent = false ∧ v.mfEnd = false ∧ v.rank > n.failoverAuthRank then
    { n with
      failoverAuthTime := n.failoverAuthTime + (v.rank - n.failoverAuthRank) * 1000
      failoverAuthRank := v.rank }
  else n

def startElection (v : FailoverView cfg) (i : Nat) (n : Node) : Outcome :=
  let n := { n with currentEpoch := (n.currentEpoch + 1) % 2 ^ 64 }
  let n := { n with failoverAuthEpoch := n.currentEpoch }
  ⟨{ n with failoverAuthSent := true, saveConfig := true },
    n.broadcast T i .failoverAuthRequest v.mfEnd, false⟩

/-- The election is won: `clusterFailoverReplaceYourMaster`. -/
def winElection (i : Nat) (n : Node) : Outcome :=
  let n :=
    if n.configEpoch i < n.failoverAuthEpoch then
      { n with configEpoch := fun j => if j = i then n.failoverAuthEpoch else n.configEpoch j }
    else n
  let n := { n with promoted := true }.clusterSaveConfig
  ⟨n, n.broadcast T i .other false, true⟩

/-- `clusterHandleSlaveFailover` at the node `i`. -/
def clusterHandleSlaveFailover (v : FailoverView cfg) (i : Nat) (n : Node) : Outcome :=
  let authAge := v.clock.now - n.failoverAuthTime
  let manual := v.mfEnd && v.mfCanStart
  let n := { n with handleFailover := false }
  match n.slaveof T i with
  | none => ⟨n, [], false⟩
  | some master =>
    if (!v.masterFailed && !manual) || T.slotsOf master = [] then ⟨n, [], false⟩
    else if tooOld cfg v && !manual then ⟨n, [], false⟩
    else if authAge > cfg.authRetryTime then scheduleElection T cfg v i n
    else
      let n := updateRank cfg v n
      if v.clock.now < n.failoverAuthTime then ⟨n, [], false⟩
      else if authAge > cfg.authTimeout then ⟨n, [], false⟩
      else if n.failoverAuthSent = false then startElection T cfg v i n
      else if n.failoverAuthCount ≥ T.neededQuorum then winElection T i n
      else ⟨n, [], false⟩

def clusterBeforeSleep (v : FailoverView cfg) (i : Nat) (n : Node) : Outcome :=
  let r := if n.handleFailover then clusterHandleSlaveFailover T cfg v i n else ⟨n, [], false⟩
  let n := if r.node.saveConfig then r.node.clusterSaveConfig else r.node
  { r with node := { n with handleFailover := false, saveConfig := false } }

end

/-! ## The system -/

/-- The nodes and the packets on the way. `grants` has the voter, the slave and the epoch of each
`FAILOVER_AUTH_ACK` that was sent, and `wins` the slave and the epoch of each election that was
won. -/
structure System where
  node : Nat → Node
  net : List Packet
  grants : List (Nat × Nat × Nat)
  wins : List (Nat × Nat)

/-- What happens. `scheduleSave` stands for the other functions that call
`clusterDoBeforeSleep(CLUSTER_TODO_SAVE_CONFIG)`, and `ping` for the packets that carry a header and
take no part in the election. -/
inductive Event (cfg : Config) where
  | deliver (k : Nat) (v : PacketView cfg)
  | lose (k : Nat)
  | ping (i j : Nat)
  | cron (i : Nat) (v : FailoverView cfg)
  | beforeSleep (i : Nat) (v : FailoverView cfg)
  | scheduleSave (i : Nat)
  | restart (i : Nat) (sent : Bool)

namespace System

variable {cfg : Config} (T : Topology)

/-- The node `i` changes. -/
def setNode (s : System) (i : Nat) (n : Node) : System :=
  { s with node := fun j => if j = i then n else s.node j }

/-- A vote leaves the node `i`. -/
def grant (s : System) (i : Nat) : Option Packet → System
  | none => s
  | some ack =>
    { s with net := s.net ++ [ack], grants := s.grants ++ [(i, ack.dest, ack.currentEpoch)] }

/-- What a call of `clusterHandleSlaveFailover` at the node `i` does to the system. -/
def commit (s : System) (i : Nat) (r : Outcome) : System :=
  let s := s.setNode i r.node
  { s with
    net := s.net ++ r.packets
    wins := if r.won then s.wins ++ [(i, r.node.failoverAuthEpoch)] else s.wins }

def step (s : System) : Event cfg → System
  | .deliver k v =>
    match s.net[k]? with
    | none => s
    | some p =>
      let (n, ack) := clusterProcessPacket T cfg v p.dest (s.node p.dest) p
      ({ s with net := s.net.eraseIdx k }.setNode p.dest n).grant p.dest ack
  | .lose k => { s with net := s.net.eraseIdx k }
  | .ping i j => { s with net := s.net ++ [(s.node i).header T i .other false j] }
  | .cron i v => s.commit i (clusterHandleSlaveFailover T cfg v i (s.node i))
  | .beforeSleep i v => s.commit i (clusterBeforeSleep T cfg v i (s.node i))
  | .scheduleSave i => s.setNode i { s.node i with saveConfig := true }
  | .restart i sent => s.setNode i ((s.node i).restart T sent)

def run (s : System) (es : List (Event cfg)) : System := es.foldl (step T) s

/-- A cluster at its start. No vote has been given, and every node has saved what it knows. -/
def start (currentEpoch : Nat → Nat) (configEpoch : Nat → Nat → Nat) : System where
  node i :=
    { currentEpoch := currentEpoch i
      lastVoteEpoch := 0
      configEpoch := configEpoch i
      votedTime := fun _ => 0
      failoverAuthTime := 0
      failoverAuthCount := 0
      failoverAuthSent := false
      failoverAuthRank := 0
      failoverAuthEpoch := 0
      handleFailover := false
      saveConfig := false
      promoted := false
      saved := ⟨currentEpoch i, 0, configEpoch i, false⟩ }
  net := []
  grants := []
  wins := []

end System

end UfsRedis.Cluster
