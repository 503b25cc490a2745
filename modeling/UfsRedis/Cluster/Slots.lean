import UfsRedis.Sds

/-!
# The slot table of the cluster

`src/cluster.c`: a node learns from the headers of PING and PONG packets which master serves which
slot (`clusterProcessPacket`, `clusterUpdateSlotsConfigWith`).

Each node has the bitmap of its slots, and `server.cluster->slots` has the node of each slot. The
gossip section, the addresses and the failure flags of the nodes are left out: they do not touch the
slots.
-/

namespace UfsRedis.Cluster

def clusterSlots : Nat := 16384

/-- `clusterNode`, as the observer has it. -/
structure ClusterNode where
  configEpoch : Nat
  /-- The bitmap. -/
  slots : Nat → Bool
  /-- `nodeIsMaster`. -/
  master : Bool
  slaveof : Option Nat

/-- `numslots`, the number of bits that are set. -/
def ClusterNode.numslots (n : ClusterNode) : Nat := (List.range clusterSlots).countP n.slots

/-- `clusterState`. A node is known by its name, a number here; `known` says which names
`clusterLookupNode` finds. `updates` are the UPDATE packets that were sent: to whom, and about
which node. -/
structure ClusterState where
  myself : Nat
  currentEpoch : Nat
  known : Nat → Bool
  nodes : Nat → ClusterNode
  slots : Nat → Option Nat
  migratingSlotsTo : Nat → Option Nat
  importingSlotsFrom : Nat → Option Nat
  keysInSlot : Nat → Nat
  updates : List (Nat × Nat)

/-- The header of a packet, `clusterMsg`. -/
structure Header where
  sender : Nat
  currentEpoch : Nat
  configEpoch : Nat
  slaveof : Option Nat
  myslots : Nat → Bool

namespace ClusterState

/-- The node `n`, changed by `f`. -/
def setNode (c : ClusterState) (n : Nat) (f : ClusterNode → ClusterNode) : ClusterState :=
  { c with nodes := fun m => if m = n then f (c.nodes m) else c.nodes m }

/-! ## The slots of a node -/

/-- The slot bit `slot` of node `n` is made `b`. -/
def writeSlotBit (c : ClusterState) (n slot : Nat) (b : Bool) : ClusterState :=
  c.setNode n fun x => { x with slots := fun j => if j = slot then b else x.slots j }

/-- `clusterNodeSetSlotBit(n,slot)`. -/
def clusterNodeSetSlotBit (c : ClusterState) (n slot : Nat) : ClusterState :=
  c.writeSlotBit n slot true

/-- `clusterNodeClearSlotBit(n,slot)`. -/
def clusterNodeClearSlotBit (c : ClusterState) (n slot : Nat) : ClusterState :=
  c.writeSlotBit n slot false

/-- `server.cluster->slots[slot] = n`. -/
def setSlot (c : ClusterState) (slot : Nat) (n : Option Nat) : ClusterState :=
  { c with slots := fun j => if j = slot then n else c.slots j }

/-- `clusterAddSlot(n,slot)`. Nothing happens if the slot is assigned. -/
def clusterAddSlot (c : ClusterState) (n slot : Nat) : ClusterState :=
  match c.slots slot with
  | some _ => c
  | none => (c.clusterNodeSetSlotBit n slot).setSlot slot (some n)

/-- `clusterDelSlot(slot)`. -/
def clusterDelSlot (c : ClusterState) (slot : Nat) : Except Fault ClusterState :=
  match c.slots slot with
  | none => .ok c
  | some n =>
    if (c.nodes n).slots slot then .ok ((c.clusterNodeClearSlotBit n slot).setSlot slot none)
    else .error .assertFailed

/-- `clusterDelNodeSlots(node)`. -/
def clusterDelNodeSlots (c : ClusterState) (node : Nat) : Except Fault ClusterState :=
  (List.range clusterSlots).foldlM
    (fun c j => if (c.nodes node).slots j then c.clusterDelSlot j else .ok c) c

/-- `clusterCloseAllSlots()`. -/
def clusterCloseAllSlots (c : ClusterState) : ClusterState :=
  { c with migratingSlotsTo := fun _ => none, importingSlotsFrom := fun _ => none }

/-! ## Roles -/

/-- `clusterSetNodeAsMaster(n)`. -/
def clusterSetNodeAsMaster (c : ClusterState) (n : Nat) : ClusterState :=
  if (c.nodes n).master then c else c.setNode n fun x => { x with master := true, slaveof := none }

/-- `clusterSetMaster(n)`: the observer becomes a slave of `n`. -/
def clusterSetMaster (c : ClusterState) (n : Nat) : Except Fault ClusterState :=
  if n = c.myself then .error .assertFailed
  else if (c.nodes c.myself).numslots ≠ 0 then .error .assertFailed
  else
    let c' :=
      if (c.nodes c.myself).master then
        (c.setNode c.myself fun x => { x with master := false }).clusterCloseAllSlots
      else c
    .ok (c'.setNode c.myself fun x => { x with slaveof := some n })

/-! ## `clusterUpdateSlotsConfigWith` -/

/-- The variables of the loop. -/
structure Rebind where
  state : ClusterState
  newmaster : Option Nat
  dirtySlots : List Nat

/-- `slots[j] == NULL || slots[j]->configEpoch < senderConfigEpoch`. -/
def older (c : ClusterState) (j senderConfigEpoch : Nat) : Bool :=
  match c.slots j with
  | none => true
  | some n => (c.nodes n).configEpoch < senderConfigEpoch

/-- One round of the loop over the slots in `clusterUpdateSlotsConfigWith`. -/
def rebindSlot (sender senderConfigEpoch : Nat) (slots : Nat → Bool) (curmaster : Option Nat)
    (r : Rebind) (j : Nat) : Except Fault Rebind :=
  let c := r.state
  if !slots j then .ok r
  else if c.slots j = some sender then .ok r
  else if (c.importingSlotsFrom j).isSome then .ok r
  else if c.older j senderConfigEpoch then do
    let dirtySlots :=
      if c.slots j = some c.myself ∧ c.keysInSlot j ≠ 0 ∧ sender ≠ c.myself then r.dirtySlots ++ [j]
      else r.dirtySlots
    let newmaster := if c.slots j = curmaster then some sender else r.newmaster
    let c ← c.clusterDelSlot j
    .ok ⟨c.clusterAddSlot sender j, newmaster, dirtySlots⟩
  else .ok r

/-- `curmaster`: the observer, or its master. -/
def curmaster (c : ClusterState) : Option Nat :=
  if (c.nodes c.myself).master then some c.myself else (c.nodes c.myself).slaveof

/-- `clusterUpdateSlotsConfigWith(sender,senderConfigEpoch,slots)`. -/
def clusterUpdateSlotsConfigWith (c : ClusterState) (sender senderConfigEpoch : Nat)
    (slots : Nat → Bool) : Except Fault ClusterState :=
  if sender = c.myself then .ok c
  else do
    let r ← (List.range clusterSlots).foldlM
      (rebindSlot sender senderConfigEpoch slots c.curmaster) ⟨c, none, []⟩
    let left ← (if r.newmaster.isSome then do
        let m ← deref c.curmaster
        .ok (decide ((r.state.nodes m).numslots = 0))
      else .ok false : Except Fault Bool)
    if left then r.state.clusterSetMaster sender
    else
      -- `delKeysInSlot` for each dirty slot
      .ok { r.state with
        keysInSlot := fun j => if j ∈ r.dirtySlots then 0 else r.state.keysInSlot j }

/-! ## `clusterProcessPacket` -/

def updateEpochs (c : ClusterState) (h : Header) : ClusterState :=
  let c := { c with currentEpoch := max c.currentEpoch h.currentEpoch }
  if (c.nodes h.sender).configEpoch < h.configEpoch then
    c.setNode h.sender fun x => { x with configEpoch := h.configEpoch }
  else c

def updateRole (c : ClusterState) (h : Header) : Except Fault ClusterState :=
  match h.slaveof with
  | none => .ok (c.clusterSetNodeAsMaster h.sender)
  | some m => do
    let c ← (if (c.nodes h.sender).master then do
        let c ← c.clusterDelNodeSlots h.sender
        .ok (c.setNode h.sender fun x => { x with master := false })
      else .ok c : Except Fault ClusterState)
    if c.known m ∧ (c.nodes h.sender).slaveof ≠ some m then
      .ok (c.setNode h.sender fun x => { x with slaveof := some m })
    else .ok c

/-- `memcmp(sender_master->slots,hdr->myslots,sizeof(hdr->myslots)) != 0`. -/
def dirty (c : ClusterState) (h : Header) : Bool :=
  let sender := c.nodes h.sender
  match if sender.master then some h.sender else sender.slaveof with
  | none => false
  | some m => (List.range clusterSlots).any fun j => (c.nodes m).slots j != h.myslots j

/-- The node that the sender is told about: one with a greater `configEpoch` that has a slot which
the header claims. -/
def outdated (c : ClusterState) (h : Header) : Option Nat :=
  (List.range clusterSlots).findSome? fun j =>
    match c.slots j with
    | some n =>
      if h.myslots j ∧ n ≠ h.sender ∧ h.configEpoch < (c.nodes n).configEpoch then some n else none
    | none => none

def updateSlots (c : ClusterState) (h : Header) : Except Fault ClusterState :=
  if c.dirty h then do
    let c ← (if (c.nodes h.sender).master then
        c.clusterUpdateSlotsConfigWith h.sender h.configEpoch h.myslots
      else .ok c : Except Fault ClusterState)
    match c.outdated h with
    | some n => .ok { c with updates := c.updates ++ [(h.sender, n)] }
    | none => .ok c
  else .ok c

/-- `clusterHandleConfigEpochCollision(sender)`, with the test of the caller. -/
def clusterHandleConfigEpochCollision (c : ClusterState) (h : Header) : ClusterState :=
  let sender := c.nodes h.sender
  let me := c.nodes c.myself
  if me.master ∧ sender.master ∧ h.configEpoch = me.configEpoch ∧
      sender.configEpoch = me.configEpoch ∧ c.myself < h.sender then
    let epoch := (c.currentEpoch + 1) % 2 ^ 64
    { c with currentEpoch := epoch }.setNode c.myself fun x => { x with configEpoch := epoch }
  else c

/-- `clusterProcessPacket`, for a PING or PONG packet. -/
def processHeader (c : ClusterState) (h : Header) : Except Fault ClusterState :=
  if c.known h.sender then do
    let c ← (c.updateEpochs h).updateRole h
    let c ← c.updateSlots h
    .ok (c.clusterHandleConfigEpochCollision h)
  else .ok c

/-- The headers are processed one after the other. -/
def run (c : ClusterState) (hs : List Header) : Except Fault ClusterState :=
  hs.foldlM processHeader c

end ClusterState

end UfsRedis.Cluster
