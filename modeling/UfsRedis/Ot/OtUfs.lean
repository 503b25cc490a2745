import UfsRedis.Ot.Strings

/-!
# Operational transformation: `otUfs`

`otUfs(ufs,op1,op2,e1,e2,flag)` reads two concurrent operations, both generated in the state `ufs`,
and sets `e1` to `op1` as it is after `op2`, and `e2` to `op2` as it is after `op1`.

With `OT_UNION` it changes unions against splits (`otUnionArgs`); with `OT_SPLIT` it changes splits
against unions (`otSplitArg`) and against splits (`otSplits`). The code for `union`/`split` and for
`split`/`union` is written out twice in the source, with `op1` and `op2` exchanged; here both use
one definition.
-/

namespace UfsRedis

/-- `OPTYPE_UNION` or `OPTYPE_SPLIT`. An edge that is made with type `-1` gets its type from
`otUfs` before it is read. -/
inductive OpType where
  | union
  | split
  deriving DecidableEq, Repr

/-- The operation of an edge. `argv2` is `NULL` for a split. -/
structure UfsOp where
  optype : OpType
  argv1 : Sds
  argv2 : Option Sds
  deriving DecidableEq, Repr

/-- `union x y`. -/
def unionOp (x y : Sds) : UfsOp := ⟨.union, x, some y⟩

/-- `split x`. -/
def splitOp (x : Sds) : UfsOp := ⟨.split, x, none⟩

/-- `strchr(s,',') != NULL`: the operand is a set of names. -/
def isSet (s : Sds) : Bool := ',' ∈ s

/-- The operands of `union uargv1 uargv2` after `split sargv`, with `OT_UNION`. -/
def otUnionArgs (ufs uargv1 uargv2 sargv : Sds) : Except Fault (Sds × Sds) := do
  let cplt := cpltClass ufs (some sargv) .union
  match isSet uargv1, isSet uargv2 with
  | false, false =>
    if uargv1 = uargv2 then .ok (uargv1, uargv2)
    else if uargv1 = star ∨ uargv2 = star then .ok (uargv1, uargv2)
    else if uargv1 = sargv then .ok (← cplt, uargv2)
    else if uargv2 = sargv then .ok (uargv1, ← cplt)
    else .ok (uargv1, uargv2)
  | true, false =>
    let a1 ← if ← findstr uargv1 sargv then cplt else .ok uargv1
    let a2 ← if uargv2 = sargv then cplt else .ok uargv2
    .ok (a1, a2)
  | false, true =>
    let a2 ← if ← findstr uargv2 sargv then cplt else .ok uargv2
    let a1 ← if uargv1 = sargv then cplt else .ok uargv1
    .ok (a1, a2)
  | true, true =>
    let a1 ← if ← findstr uargv1 sargv then cplt else .ok uargv1
    let a2 ← if ← findstr uargv2 sargv then cplt else .ok uargv2
    .ok (a1, a2)

/-- The operand of `split sargv` after `union uargv1 uargv2`, with `OT_SPLIT`. -/
def otSplitArg (ufs uargv1 uargv2 sargv : Sds) : Except Fault Sds := do
  if uargv1 = uargv2 then .ok sargv
  else if isSet sargv then
    if ← sameClass ufs uargv1 uargv2 then
      let f1 ← findstr sargv uargv1
      let f2 ← findstr sargv uargv2
      if f1 && f2 then .ok sargv else if f1 || f2 then .ok star else .ok sargv
    else if ← findstr sargv uargv1 then cpltClass ufs (some sargv) .split
    else if ← findstr sargv uargv2 then cpltClass ufs (some sargv) .split
    else .ok sargv
  else if sargv = star then .ok sargv
  else if ← sameClass ufs uargv1 uargv2 then
    .ok (if uargv1 = sargv ∨ uargv2 = sargv then star else sargv)
  else if uargv1 = sargv ∨ uargv2 = sargv then cpltClass ufs (some sargv) .split
  else .ok sargv

/-- The names of `s` that are not in the set `t`, in one string; `NULL` if there is none. -/
def setMinus (s : List Sds) (t : Sds) : Except Fault (Option Sds) := do
  let rest ← s.filterM fun e => do .ok !(← findstr t e)
  .ok (if rest = [] then none else some (sdsjoin rest ','))

/-- Two concurrent splits with `OT_SPLIT`. Sets that overlap in part become one union of a name of
each. -/
def otSplits (ufs s1 s2 : Sds) : Except Fault (UfsOp × UfsOp) := do
  match isSet s1, isSet s2 with
  | false, false => .ok (splitOp s1, splitOp s2)
  | false, true =>
    if s1 = star then .ok (splitOp s1, splitOp s2)
    else if ← findstr s2 s1 then .ok (splitOp s1, splitOp (← cpltClass ufs (some s2) .split))
    else .ok (splitOp s1, splitOp s2)
  | true, false =>
    if s2 = star then .ok (splitOp s1, splitOp s2)
    else if ← findstr s1 s2 then .ok (splitOp (← cpltClass ufs (some s1) .split), splitOp s2)
    else .ok (splitOp s1, splitOp s2)
  | true, true =>
    let elements1 := sdssplit s1 ','
    let elements2 := sdssplit s2 ','
    let overlap ← elements1.filterM fun e => findstr s2 e
    let s1nos2 ← setMinus elements1 s2
    if overlap = [] then .ok (splitOp s1, splitOp s2)
    else
      let s2nos1 ← setMinus elements2 s1
      let overlapNum := overlap.length
      if overlapNum = elements1.length ∨ overlapNum = elements2.length then
        if elements1.length = elements2.length then
          let none1 ← cpltClass ufs none .split
          .ok (splitOp none1, splitOp none1)
        else if overlapNum = elements1.length then .ok (splitOp s1, splitOp (← deref s2nos1))
        else .ok (splitOp (← deref s1nos2), splitOp s2)
      else
        let e1 := sdssplit (← deref s1nos2) ','
        let e2 := sdssplit (← deref s2nos1) ','
        let op := unionOp (e1.headD []) (e2.headD [])
        .ok (op, op)

/-- `otUfs(ufs,op1,op2,e1,e2,flag)`: the operations of `e1` and `e2`. -/
def otUfs (ufs : Sds) (op1 op2 : UfsOp) : OtFlag → Except Fault (UfsOp × UfsOp)
  | .union =>
    match op1.optype, op2.optype with
    | .union, .split => do
      let (a1, a2) ← otUnionArgs ufs op1.argv1 (← deref op1.argv2) op2.argv1
      .ok (unionOp a1 a2, splitOp op2.argv1)
    | .split, .union => do
      let (a1, a2) ← otUnionArgs ufs op2.argv1 (← deref op2.argv2) op1.argv1
      .ok (splitOp op1.argv1, unionOp a1 a2)
    | .union, .union => .ok (op1, op2)
    | .split, .split => .ok (splitOp op1.argv1, splitOp op2.argv1)
  | .split =>
    match op1.optype, op2.optype with
    | .union, .split => do
      let uargv2 ← deref op1.argv2
      .ok (op1, splitOp (← otSplitArg ufs op1.argv1 uargv2 op2.argv1))
    | .split, .union => do
      let uargv2 ← deref op2.argv2
      .ok (splitOp (← otSplitArg ufs op2.argv1 uargv2 op1.argv1), op2)
    | .split, .split => otSplits ufs op1.argv1 op2.argv1
    | .union, .union => .ok (op1, op2)

end UfsRedis
