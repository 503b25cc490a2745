import UfsRedis.Ufs.Control

/-!
# The system

One server and any number of clients, each with a FIFO channel to the server and one from it.
Each step is one command: of a user at a client, of a client at the server, or of the server at a
client. Commands for an empty channel, or for a client that does not exist, do nothing.
-/

namespace UfsRedis

/-- A client: its node, the commands on the way to the server, and those on the way from it. -/
structure Peer where
  node : Node
  up : List (List Sds)
  down : List (List Sds)
  deriving DecidableEq

/-- The server and its clients. The connection of client `i` at the server has the `id` `i`. -/
structure System where
  server : Node
  peers : List Peer
  deriving DecidableEq

/-- A step: a command of a user at client `i`, or the next command on a channel of client `i`. -/
inductive Event where
  | user (i : Nat) (argv : List Sds)
  | toServer (i : Nat)
  | toClient (i : Nat)
  deriving DecidableEq

/-- A connection of a user. -/
def userClient (argv : List Sds) : Client := ⟨argv, false, false, 0, 0⟩

/-- The connection of a client to its server. -/
def masterClient (argv : List Sds) : Client := ⟨argv, true, false, 0, 0⟩

/-- The connection of client `i` that listens on `port`, at the server. -/
def slaveClient (i port : Nat) (argv : List Sds) : Client := ⟨argv, false, true, i, port⟩

/-- A command at a client, and what it sends to the server. -/
def Peer.exec (p : Peer) (c : Client) : Except Fault Peer := do
  let (n, o, dests) ← call controlAlg p.node c
  .ok { p with node := n, up := if .master ∈ dests then p.up ++ [o.argv] else p.up }

/-- The command is sent to the slaves among the destinations. -/
def feedPeers (dests : List Dest) (argv : List Sds) (peers : List Peer) : List Peer :=
  peers.mapIdx fun j p => if .slave j ∈ dests then { p with down := p.down ++ [argv] } else p

/-- One event. -/
def System.step (sys : System) : Event → Except Fault System
  | .user i argv =>
    match sys.peers[i]? with
    | none => .ok sys
    | some p => do .ok { sys with peers := sys.peers.set i (← p.exec (userClient argv)) }
  | .toServer i =>
    match sys.peers[i]? with
    | none => .ok sys
    | some p =>
      match p.up with
      | [] => .ok sys
      | argv :: rest => do
        let (n, o, dests) ← call controlAlg sys.server (slaveClient i p.node.port argv)
        .ok ⟨n, feedPeers dests o.argv (sys.peers.set i { p with up := rest })⟩
  | .toClient i =>
    match sys.peers[i]? with
    | none => .ok sys
    | some p =>
      match p.down with
      | [] => .ok sys
      | argv :: rest => do
        let p' ← { p with down := rest }.exec (masterClient argv)
        .ok { sys with peers := sys.peers.set i p' }

def System.run (sys : System) (events : List Event) : Except Fault System :=
  events.foldlM System.step sys

/-! ## The start -/

/-- The name of the command `uinit`. -/
def uinitCmd : Sds := ['u', 'i', 'n', 'i', 't']

/-- A node executes `uinit key arg` for each of `inits`. -/
def initNode (inits : List (Sds × Sds)) (n : Node) : Except Fault Node :=
  inits.foldlM (fun n (key, arg) => do
    let (n, _) ← uinitCommand n (userClient [uinitCmd, key, arg])
    .ok n) n

/-- The server before the first command, with the clients connected that listen on `ports`. -/
def freshServer (ports : List Nat) : Node where
  port := 6379
  masterhost := false
  slaveRo := true
  masterUp := false
  slaves := ports.mapIdx fun i port => ⟨i, port, false⟩
  opNum := 0
  ufslist := none
  cspacelist := none
  sspacelist := none

/-- A client before the first command, with `slave-read-only no`, connected to the server. -/
def freshClient (port : Nat) : Node where
  port := port
  masterhost := true
  slaveRo := false
  masterUp := true
  slaves := []
  opNum := 0
  ufslist := none
  cspacelist := none
  sspacelist := none

/-- All nodes execute `uinit` of each key. -/
def System.boot (ports : List Nat) (inits : List (Sds × Sds)) : Except Fault System := do
  let server ← initNode inits (freshServer ports)
  let peers ← ports.mapM fun port => do
    let n ← initNode inits (freshClient port)
    .ok (⟨n, [], []⟩ : Peer)
  .ok ⟨server, peers⟩

/-- No message is on its way. -/
def System.Quiet (sys : System) : Prop := ∀ p ∈ sys.peers, p.up = [] ∧ p.down = []

instance (sys : System) : Decidable sys.Quiet := inferInstanceAs (Decidable (∀ p ∈ sys.peers, _))

end UfsRedis
