import UfsRedis.Lib.Heap
import UfsRedis.Ufs.Graph

/-!
# The graph in memory

`createEdge`, `createLinks` and `removeAdjEdge` on the linked lists of edges, as the source has them:
the loops follow `nextedge` while they change the lists.

`UfsRedis.Ufs.EdgeRefinement` relates them to the lists of `UfsRedis.Ufs.Graph`.
-/

namespace UfsRedis

open Lib

/-- `edge`. -/
structure Edge where
  adjvex : Nat
  nextedge : Option Nat

/-- `vertex`, with a pointer to its first edge. -/
structure MemVertex where
  data : Sds
  firstedge : Option Nat

/-- `cudGraph`, with its edges at addresses. -/
structure MemGraph where
  key : Sds
  edgenum : Int
  dlist : List MemVertex
  edges : Heap Edge

namespace MemGraph

/-- `*p`. A pointer to an edge that was freed cannot be read. -/
def edge (m : MemGraph) (p : Nat) : Except Fault Edge := deref (m.edges.get p)

/-- `ufs->dlist[v].firstedge`. -/
def firstedge (m : MemGraph) (v : Nat) : Except Fault (Option Nat) :=
  match m.dlist[v]? with
  | some x => .ok x.firstedge
  | none => .error .indexBounds

/-- `ufs->dlist[v].firstedge = p`. -/
def setFirstedge (m : MemGraph) (v : Nat) (p : Option Nat) : MemGraph :=
  { m with dlist := m.dlist.modify v fun x => { x with firstedge := p } }

/-- `ufs->dlist[v].data`. -/
def name (m : MemGraph) (v : Nat) : Sds := (m.dlist[v]?.map MemVertex.data).getD []

/-- `locateVex(ufs,e)`. -/
def locateVex (m : MemGraph) (e : Sds) : Option Nat := m.dlist.findIdx? (·.data = e)

def turns (m : MemGraph) : Nat := m.edges.next + 1

/-! ## Adding edges -/

/-- The loop of `existEdge`. -/
def existLoop (m : MemGraph) (v2 : Nat) : Nat → Option Nat → Except Fault Bool
  | 0, _ => .error .noFuel
  | _ + 1, none => .ok false
  | n + 1, some p => do
    let e ← m.edge p
    if e.adjvex = v2 then .ok true else existLoop m v2 n e.nextedge

/-- `existEdge(ufs,v1,v2)`. -/
def existEdge (m : MemGraph) (v1 v2 : Nat) : Except Fault Bool := do
  existLoop m v2 m.turns (← m.firstedge v1)

/-- A new edge from `v1` to `v2`, at the head of the list. -/
def prependEdge (m : MemGraph) (v1 v2 : Nat) : Except Fault MemGraph := do
  let first ← m.firstedge v1
  let p := m.edges.next
  let m := { m with edges := m.edges.alloc ⟨v2, first⟩, edgenum := m.edgenum + 1 }
  .ok (m.setFirstedge v1 (some p))

/-- The edge from `v1` to `v2`, if it is missing. -/
def addMissing (m : MemGraph) (v1 v2 : Nat) : Except Fault MemGraph := do
  if ← m.existEdge v1 v2 then .ok m else m.prependEdge v1 v2

/-- `createEdge(ufs,v1,v2)`. -/
def createEdge (m : MemGraph) (v1 v2 : Nat) : Except Fault MemGraph := do
  if v1 = v2 then .ok m
  else if (← m.existEdge v1 v2) && (← m.existEdge v2 v1) then .ok m
  else
    let m ← m.addMissing v1 v2
    m.addMissing v2 v1

/-- `while (p != NULL) { body; p = p->nextedge; }`, where the body is given `p->adjvex`. The pointer
is followed after the body. -/
def walk (body : MemGraph → Nat → Except Fault MemGraph) :
    Nat → Option Nat → MemGraph → Except Fault MemGraph
  | 0, _, _ => .error .noFuel
  | _ + 1, none, m => .ok m
  | n + 1, some p, m => do
    let e ← m.edge p
    let m ← body m e.adjvex
    let e ← m.edge p
    walk body n e.nextedge m

/-- The body of the inner loops of `createLinks`. -/
def linkEdge (j p : Nat) (m : MemGraph) (q : Nat) : Except Fault MemGraph := do
  let m ← (if p ≠ j then m.createEdge p j else .ok m : Except Fault MemGraph)
  m.createEdge p q

/-- One of the two nested loops of `createLinks`. -/
def linkWalk (i j : Nat) (m : MemGraph) : Except Fault MemGraph := do
  walk (fun m p => do walk (linkEdge j p) m.turns (← m.firstedge j) m) m.turns (← m.firstedge i) m

/-- `createLinks(ufs,i,j)`. -/
def createLinks (m : MemGraph) (i j : Nat) : Except Fault MemGraph := do
  let m ← m.createEdge i j
  let m ← linkWalk i j m
  linkWalk j i m

/-! ## Removing edges -/

/-- The loop of `removeAdjEdge` over the list of vertex `j`, at the edge `p` and with the pointer
`q` of the edge before it. It removes the edges to the vertices `dead`, and returns `q`, which the
next loop begins with. -/
def removeLoop (j : Nat) (dead : Nat → Bool) :
    Nat → Option Nat → Option Nat → MemGraph → Except Fault (MemGraph × Option Nat)
  | 0, _, _, _ => .error .noFuel
  | _ + 1, none, q, m => .ok (m, q)
  | n + 1, some p, q, m => do
    let e ← m.edge p
    if dead e.adjvex then
      if (← m.firstedge j) = some p then
        let m := m.setFirstedge j e.nextedge
        let m := { m with edges := m.edges.free p }
        removeLoop j dead n (← m.firstedge j) q m
      else
        let q' ← deref q
        let f ← m.edge q'
        let m := { m with edges := (m.edges.set q' { f with nextedge := e.nextedge }).free p }
        removeLoop j dead n (← m.edge q').nextedge q m
    else removeLoop j dead n e.nextedge (some p) m

/-- The second part of `removeAdjEdge`: the edges to `i`, in the lists of the vertices `js`. -/
def removeBack (i : Nat) (keep : Nat → Bool) :
    List Nat → MemGraph × Option Nat → Except Fault (MemGraph × Option Nat)
  | [], s => .ok s
  | j :: js, (m, q) => do
    let s ← removeLoop j (fun a => a = i && !keep j) m.turns (← m.firstedge j) q m
    removeBack i keep js s

/-- `removeAdjEdge(ufs,v,list,len)`. -/
def removeAdjEdge (m : MemGraph) (v : Sds) (list : Option (List Sds)) : Except Fault MemGraph := do
  let i ← vex (m.locateVex v)
  let keep := fun j => keeps list (m.name j)
  match ← m.firstedge i with
  | none => .ok m
  | some p =>
    let s ← removeLoop i (fun a => !keep a) m.turns (some p) none m
    let (m, _) ← removeBack i keep (List.range m.dlist.length) s
    .ok m

/-! ## The operations -/

/-- `existEdge` on the results of `locateVex`. -/
def existEdgeNames (m : MemGraph) (e1 e2 : Sds) : Except Fault Bool := do
  let v1 ← vex (m.locateVex e1)
  match m.locateVex e2 with
  | some v2 => m.existEdge v1 v2
  | none => do
    let _ ← m.firstedge v1
    .ok false

/-- `createLinks` on the results of `locateVex`. -/
def createLinksNames (m : MemGraph) (e1 e2 : Sds) : Except Fault MemGraph := do
  let i ← vex (m.locateVex e1)
  let j ← vex (m.locateVex e2)
  m.createLinks i j

/-- `unionProc(c,argv1,argv2)`, on the graph. -/
def unionProc (m : MemGraph) (argv1 argv2 : Sds) : Except Fault MemGraph := do
  if argv1 = star ∨ argv2 = star then .ok m
  else
    match isSet argv1, isSet argv2 with
    | true, false =>
      let elements := sdssplit argv1 ','
      if ← m.existEdgeNames (elements.headD []) argv2 then .ok m
      else elements.foldlM (fun m e => m.createLinksNames e argv2) m
    | false, true =>
      let elements := sdssplit argv2 ','
      if ← m.existEdgeNames (elements.headD []) argv1 then .ok m
      else elements.foldlM (fun m e => m.createLinksNames e argv1) m
    | true, true =>
      let elements1 := sdssplit argv1 ','
      let elements2 := sdssplit argv2 ','
      if ← m.existEdgeNames (elements1.headD []) (elements2.headD []) then .ok m
      else
        elements1.foldlM (fun m e1 => elements2.foldlM (fun m e2 => m.createLinksNames e1 e2) m) m
    | false, false => m.createLinksNames argv1 argv2

/-- `splitProc(c,argv1)`, on the graph. -/
def splitProc (m : MemGraph) (argv1 : Sds) : Except Fault MemGraph :=
  if isSet argv1 then
    let elements := sdssplit argv1 ','
    elements.foldlM (fun m e => m.removeAdjEdge e (some elements)) m
  else if argv1 ≠ star then m.removeAdjEdge argv1 none
  else .ok m

end MemGraph

end UfsRedis
