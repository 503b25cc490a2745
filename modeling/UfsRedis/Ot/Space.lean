import UfsRedis.Ufs.FromState
import UfsRedis.Lib.Stair

/-!
# 2D state spaces

A state space is a list of vertices. An edge of a vertice is an operation and leads to the vertice
with that operation applied: `ledge` edges are the operations of the local client, `redge` edges
those of the others. The vertices are allocated one after the other and never freed, so an `adjv`
pointer is the position of its vertice in the list.
-/

namespace UfsRedis

open Lib

/-- A `dedge`. -/
structure Dedge where
  op : UfsOp
  oid : Sds
  adjv : Nat
  deriving DecidableEq, Repr

/-- A `vertice`. -/
structure Vertice where
  content : Sds
  ledge : Option Dedge
  redge : Option Dedge
  deriving DecidableEq, Repr

namespace Vertice

/-- `ledge` or `redge`. -/
def edge (v : Vertice) : Side → Option Dedge
  | .l => v.ledge
  | .r => v.redge

/-- `v->ledge = e` or `v->redge = e`. -/
def setEdge (v : Vertice) (s : Side) (e : Dedge) : Vertice :=
  match s with
  | .l => { v with ledge := some e }
  | .r => { v with redge := some e }

/-- `createVertice()`, with the content that it gets. -/
def create (content : Sds) : Vertice := ⟨content, none, none⟩

@[simp] theorem edge_create (content : Sds) (s : Side) : (create content).edge s = none := by
  cases s <;> rfl

@[simp] theorem edge_setEdge_self (v : Vertice) (s : Side) (e : Dedge) :
    (v.setEdge s e).edge s = some e := by
  cases s <;> rfl

theorem edge_setEdge_ne (v : Vertice) {s t} (h : t ≠ s) (e : Dedge) :
    (v.setEdge s e).edge t = v.edge t := by
  cases s <;> cases t <;> first | rfl | exact absurd rfl h

@[simp] theorem content_setEdge (v : Vertice) (s : Side) (e : Dedge) :
    (v.setEdge s e).content = v.content := by
  cases s <;> rfl

end Vertice

/-- The vertices of a state space, in the order of their creation. -/
abbrev Space := List Vertice

namespace Space

def vertice (V : Space) (q : Nat) : Except Fault Vertice :=
  match V[q]? with
  | some v => .ok v
  | none => .error .indexBounds

/-- Set an edge of the vertice at `q`. -/
def setEdge (V : Space) (q : Nat) (s : Side) (e : Dedge) : Space := V.modify q (·.setEdge s e)

end Space

/-! ## Commands -/

/-- The name of the command `union`. -/
def unionCmd : Sds := ['u', 'n', 'i', 'o', 'n']

/-- The name of the command `split`. -/
def splitCmd : Sds := ['s', 'p', 'l', 'i', 't']

/-! ## Object identifiers -/

/-- The digits of `sum`, least significant first; the loop of `itos` fills `aa` with them. -/
def itosDigits : Nat → Nat → List Char
  | 0, _ => []
  | fuel + 1, sum => if sum > 0 then Nat.digitChar (sum % 10) :: itosDigits fuel (sum / 10) else []

/-- `itos(value,string,10)`. The text of a number that is not positive is empty. -/
def itos (value : Int) : Sds := (itosDigits value.toNat value.toNat).reverse

/-- `itos` into a buffer of `size` bytes. -/
def itosBuf (value : Int) (size : Nat) : Except Fault Sds :=
  if (itos value).length < size then .ok (itos value) else .error .bufferOverflow

/-- `buf1[Port_Num+1]`. -/
def portBuf : Nat := 5

/-- `buf2[Max_Op_Num]`. -/
def opNumBuf : Nat := 5

/-- The `oid` of the operation number `opNum` of the client that listens on `port`. -/
def createOid (port opNum : Nat) : Except Fault Sds := do
  let p ← itosBuf (port - 6379) portBuf
  let n ← itosBuf opNum opNumBuf
  .ok (p ++ '_' :: n)

def initOids : Sds := ['i', 'n', 'i', 't']

/-- `sdscat(oids,","); sdscat(oids,oid)`. -/
def catOid (oids oid : Sds) : Sds := oids ++ ',' :: oid

/-- `findOid`: `,` and the `oid` are a part of the list. -/
def findOid (list s : Sds) : Bool := strstr list (',' :: s)

/-- `sdslistsds(list,v,len)`: whether `v` is among the first `len` entries, and the list with the
entry that matched set to `NULL`. -/
def sdslistsds : List (Option Sds) → Sds → Nat → Except Fault (Bool × List (Option Sds))
  | list, _, 0 => .ok (false, list)
  | [], _, _ + 1 => .error .indexBounds
  | x :: list, v, len + 1 =>
    if x = some v then .ok (true, none :: list)
    else do
      let (found, list) ← sdslistsds list v len
      .ok (found, x :: list)

/-- The loop of `oidscmp`, which ends at the first name that is not found. -/
def oidsLoop (len : Nat) : List Sds → List (Option Sds) → Except Fault Bool
  | [], _ => .ok true
  | o :: oids1, oids2 => do
    let (found, oids2) ← sdslistsds oids2 o len
    if found then oidsLoop len oids1 oids2 else .ok false

/-- `oidscmp(s1,s2) == 0`. -/
def oidscmp (s1 s2 : Sds) : Except Fault Bool :=
  let oids1 := sdssplit s1 ','
  oidsLoop oids1.length oids1 ((sdssplit s2 ',').map some)

/-! ## Locating a vertice -/

/-- `locateLVertice`, from the vertice `q`. -/
def locateLVertice (V : Space) : Nat → Nat → Except Fault Nat
  | 0, _ => .error .noFuel
  | fuel + 1, q => do
    let v ← V.vertice q
    match v.ledge, v.redge with
    | none, none => .ok q
    | some e, _ => locateLVertice V fuel e.adjv
    | none, some e => locateLVertice V fuel e.adjv

/-- `calculateOids`, from the vertice `q`. -/
def calculateOids (V : Space) : Nat → Nat → Sds → Except Fault Sds
  | 0, _, _ => .error .noFuel
  | fuel + 1, q, oids => do
    let v ← V.vertice q
    match v.ledge, v.redge with
    | none, none => .ok oids
    | some e, _ => calculateOids V fuel e.adjv (catOid oids e.oid)
    | none, some e => calculateOids V fuel e.adjv (catOid oids e.oid)

/-- The edge that `locateRVertice` takes from `v`: `ledge` if its operation is in the context, or
else `redge` if its operation is. -/
def nextEdge (v : Vertice) (ctx : Sds) : Option Dedge :=
  match v.ledge.filter fun e => findOid ctx e.oid with
  | some e => some e
  | none => v.redge.filter fun e => findOid ctx e.oid

/-- `locateRVertice`, at the vertice `q` after the operations `t`. -/
def locateRVertice (V : Space) (ctx : Sds) : Nat → Nat → Sds → Except Fault (Option Nat)
  | 0, _, _ => .error .noFuel
  | fuel + 1, q, t => do
    if t.length = ctx.length then
      if t.length = 4 then .ok (if ctx = initOids then some q else none)
      else .ok (if ← oidscmp t ctx then some q else none)
    else
      let v ← V.vertice q
      match nextEdge v ctx with
      | some e => locateRVertice V ctx fuel e.adjv (catOid t e.oid)
      | none => .ok none

/-- `locateVertice(space,NULL)`. -/
def locateLast (V : Space) : Except Fault (Option Nat) :=
  if V = [] then .ok none else return some (← locateLVertice V (V.length + 1) 0)

/-- `locateVertice(space,ctx)` for a context. -/
def locateCtx (V : Space) (ctx : Sds) : Except Fault (Option Nat) :=
  if V = [] then .ok none else locateRVertice V ctx (V.length + 1) 0 initOids

/-! ## A new operation -/

/-- A new vertice with `content`, and the edge with `op` of side `s` from `u` to it. -/
def addOp (V : Space) (u : Nat) (s : Side) (op : UfsOp) (oid content : Sds) : Space :=
  Space.setEdge (V ++ [Vertice.create content]) u s ⟨op, oid, V.length⟩

/-- The `while` loop of the remote and the server processing. At each step `u` is a vertice without
the new operation and `p` the same with it; the loop follows the edges of the other side from `u`.
It returns the space, the last `u`, and `oids` with the operations on the way. -/
def otLoop (len : Nat) (s : Side) :
    Nat → Space → Nat → Nat → Sds → Except Fault (Space × Nat × Sds)
  | 0, _, _, _, _ => .error .noFuel
  | fuel + 1, V, u, p, oids => do
    let vu ← V.vertice u
    match vu.edge s.flip with
    | none => .ok (V, u, oids)
    | some e => do
      let d ← deref (vu.edge s)
      let (op1, op2) ← otUfs vu.content e.op d.op .union
      let vul ← V.vertice e.adjv
      let content ← updateVerticeUfsFromState vul.content op2 len
      let V' := (addOp V e.adjv s op2 d.oid content).setEdge p s.flip ⟨op1, e.oid, V.length⟩
      otLoop len s fuel V' e.adjv V.length (catOid oids e.oid)

/-- An operation `op` of side `s` arrives with the context `ctx`. The content of its first vertice
comes from `cop`, which a client reads from the command again. Returns the space, the last vertice
without the operation, and the operations in it. -/
def receive (V : Space) (len : Nat) (s : Side) (op cop : UfsOp) (oid ctx : Sds) :
    Except Fault (Space × Nat × Sds) := do
  let u ← deref (← locateCtx V ctx)
  let vu ← V.vertice u
  let content ← updateVerticeUfsFromState vu.content cop len
  otLoop len s (V.length + 1) (addOp V u s op oid content) u V.length ctx

/-- An operation is put on the last vertice: `v` is the vertice, `content` that of the new one. -/
def addLast (V : Space) (s : Side) (op : UfsOp) (oid : Sds)
    (content : Vertice → Except Fault Sds) : Except Fault Space := do
  let u ← deref (← locateLast V)
  let vu ← V.vertice u
  .ok (addOp V u s op oid (← content vu))

end UfsRedis
