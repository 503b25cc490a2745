import UfsRedis.Ot.OtUfs

/-!
# The graph of a union-find set

A `cudGraph` has one vertex for each element and keeps the elements of a class pairwise adjacent.
An adjacency list is the list of the `adjvex` of its edges, first edge first; a new edge is put at
its head.

`createLinks` walks two adjacency lists while `createEdge` adds edges at their heads. A walk does
not see an edge that is added before its place, so it is a fold over the list as it is when the walk
starts.

`locateVex` gives `-1` for a name that is not in the graph (here `none`), and the callers use the
result as an index without a check.
-/

namespace UfsRedis

/-- A vertex: its name and its adjacency list. -/
structure Vertex where
  data : Sds
  firstedge : List Nat
  deriving DecidableEq, Repr

/-- `cudGraph`. `vertexnum` is the length of `dlist`. -/
structure CudGraph where
  key : Sds
  edgenum : Int
  dlist : List Vertex
  deriving DecidableEq, Repr

namespace CudGraph

/-- The adjacency list of vertex `i`. -/
def adj (g : CudGraph) (i : Nat) : List Nat := (g.dlist[i]?.map Vertex.firstedge).getD []

/-- The name of vertex `i`. -/
def name (g : CudGraph) (i : Nat) : Sds := (g.dlist[i]?.map Vertex.data).getD []

def names (g : CudGraph) : List Sds := g.dlist.map Vertex.data

end CudGraph

/-- `locateVex(ufs,e)`: the first vertex with the name. -/
def locateVex (g : CudGraph) (e : Sds) : Option Nat := g.dlist.findIdx? (·.data = e)

/-- A vertex index that is read: `-1` is out of bounds. -/
def vex : Option Nat → Except Fault Nat
  | some i => .ok i
  | none => .error .indexBounds

@[simp] theorem vex_some (i : Nat) : vex (some i) = .ok i := rfl

/-- `existEdge(ufs,v1,v2)`. -/
def existEdge (g : CudGraph) (v1 v2 : Nat) : Bool := v2 ∈ g.adj v1

/-- `existEdge` on the results of `locateVex`: only `dlist[v1]` is read. -/
def existEdgeNames (g : CudGraph) (e1 e2 : Sds) : Except Fault Bool := do
  let v1 ← vex (locateVex g e1)
  match locateVex g e2 with
  | some v2 => .ok (existEdge g v1 v2)
  | none => .ok false

/-- `existElement(ufs,e)`. -/
def existElement (g : CudGraph) (e : Sds) : Bool := g.dlist.any (·.data = e)

/-- `existElements(ufs,list,len)`. -/
def existElements (g : CudGraph) (list : List Sds) : Bool := list.all (existElement g)

/-- `isConnected(ufs,elements,len)`: every two of the elements are adjacent. -/
def isConnected (g : CudGraph) : List Sds → Except Fault Bool
  | [] => .ok true
  | e :: elements => do
    if ← elements.allM (existEdgeNames g e) then isConnected g elements else .ok false

/-- The edge from `v1` to `v2`, at the head of the list. -/
def addEdge (g : CudGraph) (v1 v2 : Nat) : CudGraph :=
  { g with
    edgenum := g.edgenum + 1
    dlist := g.dlist.modify v1 fun v => { v with firstedge := v2 :: v.firstedge } }

/-- `createEdge(ufs,v1,v2)`: the edges in both directions, where they are missing. -/
def createEdge (g : CudGraph) (v1 v2 : Nat) : CudGraph :=
  if v1 = v2 ∨ (existEdge g v1 v2 ∧ existEdge g v2 v1) then g
  else
    let g := if existEdge g v1 v2 then g else addEdge g v1 v2
    if existEdge g v2 v1 then g else addEdge g v2 v1

/-- The body of the walks of `createLinks`: edges from `p` to `j` and to `q`. -/
def linkEdge (j p : Nat) (g : CudGraph) (q : Nat) : CudGraph :=
  createEdge (if p ≠ j then createEdge g p j else g) p q

/-- One of the two walks of `createLinks`, over the lists of `i` and of `j`. -/
def linkWalk (i j : Nat) (g : CudGraph) : CudGraph :=
  (g.adj i).foldl (fun g p => (g.adj j).foldl (linkEdge j p) g) g

/-- `createLinks(ufs,i,j)`. -/
def createLinks (g : CudGraph) (i j : Nat) : CudGraph :=
  linkWalk j i (linkWalk i j (createEdge g i j))

/-- `createLinks` on the results of `locateVex`. -/
def createLinksNames (g : CudGraph) (e1 e2 : Sds) : Except Fault CudGraph := do
  let i ← vex (locateVex g e1)
  let j ← vex (locateVex g e2)
  .ok (createLinks g i j)

/-- `list && find(list,v,len)`. -/
def keeps (list : Option (List Sds)) (v : Sds) : Bool :=
  match list with
  | none => false
  | some l => v ∈ l

/-- The edges between `i` and the vertices that are not in `keep`, removed in both directions. -/
def dropEdges (g : CudGraph) (i : Nat) (keep : Nat → Bool) : CudGraph :=
  let dlist := g.dlist.modify i fun v => { v with firstedge := v.firstedge.filter keep }
  { g with
    dlist := dlist.mapIdx fun j v =>
      { v with firstedge := v.firstedge.filter fun p => p ≠ i || keep j } }

/-- `removeAdjEdge(ufs,v,list,len)`: the edges between `v` and the vertices whose name is not in
`list` are removed; all edges of `v` if `list` is `NULL`. `edgenum` is not changed. -/
def removeAdjEdge (g : CudGraph) (v : Sds) (list : Option (List Sds)) : Except Fault CudGraph := do
  let i ← vex (locateVex g v)
  if g.adj i = [] then .ok g else .ok (dropEdges g i fun j => keeps list (g.name j))

/-- `unionProc(c,argv1,argv2)`, on the graph. A set is looked at only at its first name. -/
def unionProc (g : CudGraph) (argv1 argv2 : Sds) : Except Fault CudGraph := do
  if argv1 = star ∨ argv2 = star then .ok g
  else
    match isSet argv1, isSet argv2 with
    | true, false =>
      let elements := sdssplit argv1 ','
      if ← existEdgeNames g (elements.headD []) argv2 then .ok g
      else elements.foldlM (fun g e => createLinksNames g e argv2) g
    | false, true =>
      let elements := sdssplit argv2 ','
      if ← existEdgeNames g (elements.headD []) argv1 then .ok g
      else elements.foldlM (fun g e => createLinksNames g e argv1) g
    | true, true =>
      let elements1 := sdssplit argv1 ','
      let elements2 := sdssplit argv2 ','
      if ← existEdgeNames g (elements1.headD []) (elements2.headD []) then .ok g
      else
        elements1.foldlM (fun g e1 => elements2.foldlM (fun g e2 => createLinksNames g e1 e2) g) g
    | false, false => createLinksNames g argv1 argv2

/-- `splitProc(c,argv1)`, on the graph. -/
def splitProc (g : CudGraph) (argv1 : Sds) : Except Fault CudGraph :=
  if isSet argv1 then
    let elements := sdssplit argv1 ','
    elements.foldlM (fun g e => removeAdjEdge g e (some elements)) g
  else if argv1 ≠ star then removeAdjEdge g argv1 none
  else .ok g

def execOp (g : CudGraph) (op : UfsOp) : Except Fault CudGraph :=
  match op.optype with
  | .union => do unionProc g op.argv1 (← deref op.argv2)
  | .split => splitProc g op.argv1

/-- The text of the class of vertex `i`: its name, then those of its adjacency list. -/
def classText (g : CudGraph) (i : Nat) : Sds :=
  let list := g.name i ++ [',']
  let list :=
    if g.adj i ≠ [] then list ++ sdsjoin ((g.adj i).map g.name) ',' else sdstrim list ','
  sdsjoin (sdssplit list ',') ','

/-- Vertex `i` has an edge to an earlier vertex, so its class is already written. -/
def skipped (g : CudGraph) (i : Nat) : Bool := (List.range i).any (existEdge g i)

/-- The loop over the classes in `updateVerticeUfs` and `umembersCommand`: `text i` is written for
the first vertex `i` of each class. A character is cut off at the end if the last vertex is not the
first of its class, or if there is only one class. -/
def writeClasses (g : CudGraph) (text : Nat → Sds) : Sds :=
  let vertexnum := g.dlist.length
  let result := ((List.range vertexnum).map fun i =>
    if skipped g i then []
    else text i ++ if i ≠ vertexnum - 1 then ['/'] else []).flatten
  let skip := (List.range vertexnum).countP (skipped g)
  let flag := vertexnum ≠ 0 ∧ skipped g (vertexnum - 1)
  if skip + 1 = vertexnum ∨ flag then sdsrange result 0 (result.length - 2) else result

/-- `updateVerticeUfs(ufs,v)`: the content of `v`. -/
def updateVerticeUfs (g : CudGraph) : Sds := writeClasses g (classText g)

/-- One class of the argument of `uinit`: its vertices, then the links between any two of them. -/
def addClass (g : CudGraph) (elements : List Sds) : Except Fault CudGraph :=
  let g := { g with dlist := g.dlist ++ elements.map fun e => ⟨e, []⟩ }
  let num := elements.length
  (List.range num).foldlM (fun g k =>
    (List.range num).foldlM (fun g m =>
      if m ≠ k then createLinksNames g (elements.getD k []) (elements.getD m []) else .ok g) g) g

/-- The graph that `uinit key arg` makes. -/
def uinitGraph (key arg : Sds) : Except Fault CudGraph :=
  (sdssplit arg '/').foldlM (fun g eqc => addClass g (sdssplit eqc ',')) ⟨key, 0, []⟩

/-- The reply of a rejected `union` or `split`. -/
inductive ArgvErr where
  | argvnoexistallelems
  | argvnoexistelem
  | argv1nosameclass
  | argv2nosameclass
  | argv12nosameclass
  | argvsplitnosameclass
  deriving DecidableEq, Repr

def ArgvErr.text : ArgvErr → String
  | .argvnoexistallelems => "-Some elements do not exist in the union-find-split!\r\n"
  | .argvnoexistelem => "-The element does not exist in the union-find-split!\r\n"
  | .argv1nosameclass =>
    "-Elements of the first argument should come from the same equivalent class!\r\n"
  | .argv2nosameclass =>
    "-Elements of the second argument should come from in the same equivalent class!\r\n"
  | .argv12nosameclass =>
    "-Elements of the first(second) second argument should come from the same equivalent class!\r\n"
  | .argvsplitnosameclass =>
    "-Elements of the argument should come from the same equivalent class!\r\n"

def checkSetSingle (g : CudGraph) (set single : Sds) (err : ArgvErr) :
    Except Fault (Option ArgvErr) := do
  let elements := sdssplit set ','
  if ← isConnected g elements then
    if existElements g elements && existElement g single then .ok none
    else .ok (some .argvnoexistallelems)
  else .ok (some err)

/-- `checkUnionArgv(c,argv)`: `none` is `Argv_OK`. -/
def checkUnionArgv (g : CudGraph) (argv1 argv2 : Sds) : Except Fault (Option ArgvErr) := do
  if argv1 = star ∨ argv2 = star then
    if argv1 ≠ star ∧ ¬ existElement g argv1 then .ok (some .argvnoexistallelems)
    else if argv2 ≠ star ∧ ¬ existElement g argv2 then .ok (some .argvnoexistallelems)
    else .ok none
  else
    match isSet argv1, isSet argv2 with
    | true, false => checkSetSingle g argv1 argv2 .argv1nosameclass
    | false, true => checkSetSingle g argv2 argv1 .argv2nosameclass
    | true, true =>
      let elements1 := sdssplit argv1 ','
      let elements2 := sdssplit argv2 ','
      let c1 ← isConnected g elements1
      let c2 ← isConnected g elements2
      if !c1 && !c2 then .ok (some .argv12nosameclass)
      else if !c1 then .ok (some .argv1nosameclass)
      else if !c2 then .ok (some .argv2nosameclass)
      else if existElements g elements1 && existElements g elements2 then .ok none
      else .ok (some .argvnoexistallelems)
    | false, false =>
      if existElement g argv1 && existElement g argv2 then .ok none
      else .ok (some .argvnoexistallelems)

/-- `checkSplitArgv(c,argv)`: `none` is `Argv_OK`. -/
def checkSplitArgv (g : CudGraph) (argv1 : Sds) : Except Fault (Option ArgvErr) := do
  if isSet argv1 then
    let elements := sdssplit argv1 ','
    if ← isConnected g elements then
      if existElements g elements then .ok none else .ok (some .argvnoexistallelems)
    else .ok (some .argvsplitnosameclass)
  else if existElement g argv1 then .ok none
  else .ok (some .argvnoexistelem)

end UfsRedis
