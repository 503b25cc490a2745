import UfsRedis.Sds
import UfsRedis.Lib.Heap
import Mathlib.Order.Lattice

/-!
# Skiplists

`zskiplist` of `src/t_zset.c`: nodes with several levels, each with a pointer forward and the number
of nodes that it passes.

Scores and elements are of any linear orders: doubles that are not NaN, and strings in the order of
`sdscmp`. The nodes are blocks at addresses; the header is not one of them. A span is an
`unsigned int`. The random level of a new node comes with the call.

The searches of the source differ in their condition only, so there is one search. It gives
`update[i]` and the number of nodes passed on the way to it, for each level.
-/

namespace UfsRedis.Skiplist

open Lib

/-- `ZSKIPLIST_MAXLEVEL`. -/
def maxLevel : Nat := 32

/-- The values of an `unsigned int`. -/
def uintSize : Nat := 4294967296

/-- `a - b` of `unsigned int`. -/
def usub (a b : Nat) : Nat := (a + (uintSize - b % uintSize)) % uintSize

/-- `struct zskiplistLevel`. -/
structure Level where
  forward : Option Nat
  span : Nat
  deriving DecidableEq, Repr

/-- `zskiplistNode`. -/
structure Node (S E : Type) where
  ele : E
  score : S
  backward : Option Nat
  level : List Level

/-- A pointer to the header, or to a node. -/
inductive At where
  | header
  | node (a : Nat)
  deriving DecidableEq, Repr

/-- `zskiplist`. -/
structure Zskiplist (S E : Type) where
  header : List Level
  tail : Option Nat
  length : Nat
  level : Nat
  nodes : Heap (Node S E)

/-- `zslCreate()`. -/
def zslCreate (S E : Type) : Zskiplist S E :=
  ⟨List.replicate maxLevel ⟨none, 0⟩, none, 0, 1, Heap.empty⟩

section

variable {S E : Type} (z : Zskiplist S E)

/-- `*x`. -/
def node (a : Nat) : Except Fault (Node S E) := deref (z.nodes.get a)

/-- The array `level` of the header or a node. -/
def levels : At → Except Fault (List Level)
  | .header => .ok z.header
  | .node a => do .ok (← node z a).level

/-- `x->level[i]`. -/
def readLevel (p : At) (i : Nat) : Except Fault Level := do
  match (← levels z p)[i]? with
  | some l => .ok l
  | none => .error .indexBounds

/-- `x->level[i]` is written. -/
def writeLevel (p : At) (i : Nat) (l : Level) : Except Fault (Zskiplist S E) := do
  if i < (← levels z p).length then
    match p with
    | .header => .ok { z with header := z.header.set i l }
    | .node a => do
      let n ← node z a
      .ok { z with nodes := z.nodes.set a { n with level := n.level.set i l } }
  else .error .indexBounds

/-- `x->backward = b`. -/
def writeBackward (a : Nat) (b : Option Nat) : Except Fault (Zskiplist S E) := do
  let n ← node z a
  .ok { z with nodes := z.nodes.set a { n with backward := b } }

/-- The backward pointer of the node `next`, or `zsl->tail` if there is none. -/
def writeBack (next b : Option Nat) : Except Fault (Zskiplist S E) :=
  match next with
  | some a => writeBackward z a b
  | none => .ok { z with tail := b }

end

variable {S E : Type}

/-! ## Search -/

/-- The inner loop of a search on level `i`, from the place `x` which `rank` nodes come before. `pass`
is the condition on the next node, with the nodes up to it. -/
def advance (z : Zskiplist S E) (pass : Nat → S → E → Bool) (i : Nat) :
    Nat → At → Nat → Except Fault (At × Nat)
  | 0, _, _ => .error .noFuel
  | n + 1, x, rank => do
    let l ← readLevel z x i
    match l.forward with
    | none => .ok (x, rank)
    | some a => do
      let next ← node z a
      if pass (rank + l.span) next.score next.ele then
        advance z pass i n (.node a) (rank + l.span)
      else .ok (x, rank)

/-- The outer loop, for the levels below `i`: `update` and `rank`. -/
def searchLevels (z : Zskiplist S E) (pass : Nat → S → E → Bool) :
    Nat → At → Nat → Except Fault (List (At × Nat))
  | 0, _, _ => .ok []
  | i + 1, x, rank => do
    let (x, rank) ← advance z pass i (z.nodes.next + 1) x rank
    let update ← searchLevels z pass i x rank
    .ok (update ++ [(x, rank)])

def search (z : Zskiplist S E) (pass : Nat → S → E → Bool) : Except Fault (List (At × Nat)) :=
  searchLevels z pass z.level .header 0

/-! ## Insertion -/

def raiseLevel (z : Zskiplist S E) (level : Nat) : Zskiplist S E :=
  if z.level < level then
    { z with
      header := z.header.mapIdx fun i l =>
        if z.level ≤ i ∧ i < level then { l with span := z.length % uintSize } else l
      level := level }
  else z

/-- The two loops over the levels of `zslInsert`: on the levels of the new node `x` it is linked in, on
the higher ones only the span grows. -/
def insertLevels (x level rank0 : Nat) :
    Nat → List (At × Nat) → Zskiplist S E → Except Fault (Zskiplist S E)
  | _, [], z => .ok z
  | i, (p, rank) :: update, z => do
    let l ← readLevel z p i
    if i < level then do
      let z ← writeLevel z (.node x) i ⟨l.forward, usub l.span (usub rank0 rank)⟩
      let z ← writeLevel z p i ⟨some x, (usub rank0 rank + 1) % uintSize⟩
      insertLevels x level rank0 (i + 1) update z
    else do
      let z ← writeLevel z p i ⟨l.forward, (l.span + 1) % uintSize⟩
      insertLevels x level rank0 (i + 1) update z

/-- The address of a place: `NULL` for the header. -/
def At.addr : At → Option Nat
  | .header => none
  | .node a => some a

/-- `zslInsert(zsl,score,ele)`, with the random level. -/
def zslInsert [LinearOrder S] [LinearOrder E] (z : Zskiplist S E) (score : S) (ele : E)
    (level : Nat) : Except Fault (Zskiplist S E) := do
  let update ← search z fun _ s e => decide (s < score) || (decide (s = score) && decide (e < ele))
  let update := update ++ List.replicate (level - z.level) (.header, 0)
  let z := raiseLevel z level
  let x := z.nodes.next
  match update with
  | [] => .error .indexBounds
  | (first, rank0) :: _ =>
    let z := { z with
      nodes := z.nodes.alloc ⟨ele, score, first.addr, List.replicate level ⟨none, 0⟩⟩ }
    let z ← insertLevels x level rank0 0 update z
    let l ← readLevel z (.node x) 0
    let z ← writeBack z l.forward (some x)
    .ok { z with length := z.length + 1 }

/-! ## Deletion -/

/-- The loop of `zslDeleteNode`. -/
def unlinkLevels (x : Nat) :
    Nat → List (At × Nat) → Zskiplist S E → Except Fault (Zskiplist S E)
  | _, [], z => .ok z
  | i, (p, _) :: update, z => do
    let l ← readLevel z p i
    if l.forward = some x then do
      let lx ← readLevel z (.node x) i
      let z ← writeLevel z p i ⟨lx.forward, usub (l.span + lx.span) 1⟩
      unlinkLevels x (i + 1) update z
    else do
      let z ← writeLevel z p i ⟨l.forward, usub l.span 1⟩
      unlinkLevels x (i + 1) update z

/-- `while(zsl->level > 1 && zsl->header->level[zsl->level-1].forward == NULL) zsl->level--`. -/
def lowerLevel : Nat → Zskiplist S E → Except Fault (Zskiplist S E)
  | 0, z => .ok z
  | n + 1, z =>
    if 1 < z.level then do
      let l ← readLevel z .header (z.level - 1)
      if l.forward = none then lowerLevel n { z with level := z.level - 1 } else .ok z
    else .ok z

/-- `zslDeleteNode(zsl,x,update)`. -/
def zslDeleteNode (z : Zskiplist S E) (x : Nat) (update : List (At × Nat)) :
    Except Fault (Zskiplist S E) := do
  let z ← unlinkLevels x 0 (update.take z.level) z
  let l ← readLevel z (.node x) 0
  let n ← node z x
  let z ← writeBack z l.forward n.backward
  let z ← lowerLevel z.level z
  .ok { z with length := z.length - 1 }

/-- `zslFreeNode(node)`. -/
def zslFreeNode (z : Zskiplist S E) (x : Nat) : Zskiplist S E := { z with nodes := z.nodes.free x }

def afterSearch (z : Zskiplist S E) (update : List (At × Nat)) : Except Fault (Option Nat) :=
  match update with
  | [] => .error .indexBounds
  | (p, _) :: _ => do .ok (← readLevel z p 0).forward

/-- `zslDelete(zsl,score,ele,node)`, which frees the node if `node` is `NULL`. -/
def zslDelete [LinearOrder S] [LinearOrder E] (z : Zskiplist S E) (score : S) (ele : E) :
    Except Fault (Zskiplist S E × Bool) := do
  let update ← search z fun _ s e => decide (s < score) || (decide (s = score) && decide (e < ele))
  match ← afterSearch z update with
  | none => .ok (z, false)
  | some x => do
    let n ← node z x
    if score = n.score ∧ n.ele = ele then do
      let z ← zslDeleteNode z x update
      .ok (zslFreeNode z x, true)
    else .ok (z, false)

/-- The loop that deletes nodes in a range, from `x` on. `inRange` is given the number of the node. -/
def deleteWhile (inRange : Nat → S → E → Bool) (update : List (At × Nat)) :
    Nat → Nat → Option Nat → Zskiplist S E → Except Fault (Zskiplist S E × Nat)
  | 0, _, _, _ => .error .noFuel
  | _ + 1, _, none, z => .ok (z, 0)
  | fuel + 1, traversed, some x, z => do
    let n ← node z x
    if inRange traversed n.score n.ele then do
      let next := (← readLevel z (.node x) 0).forward
      let z ← zslDeleteNode z x update
      let (z, removed) ← deleteWhile inRange update fuel (traversed + 1) next (zslFreeNode z x)
      .ok (z, removed + 1)
    else .ok (z, 0)

def deleteRange (z : Zskiplist S E) (pass inRange : Nat → S → E → Bool) :
    Except Fault (Zskiplist S E × Nat) := do
  let update ← search z pass
  match update with
  | [] => .error .indexBounds
  | (_, traversed) :: _ =>
    deleteWhile inRange update (z.nodes.next + 1) (traversed + 1) (← afterSearch z update) z

/-- `zrangespec`. -/
structure Rangespec (S : Type) where
  min : S
  max : S
  minex : Bool
  maxex : Bool

/-- `zslDeleteRangeByScore(zsl,range,dict)`. -/
def zslDeleteRangeByScore [LinearOrder S] (z : Zskiplist S E) (range : Rangespec S) :
    Except Fault (Zskiplist S E × Nat) :=
  deleteRange z
    (fun _ s _ => if range.minex then decide (s ≤ range.min) else decide (s < range.min))
    fun _ s _ => if range.maxex then decide (s < range.max) else decide (s ≤ range.max)

/-- A bound of a range of elements: `shared.minstring`, an element, or `shared.maxstring`. -/
inductive LexBound (E : Type) where
  | minstring
  | value (e : E)
  | maxstring

/-- `zlexrangespec`. -/
structure Lexrangespec (E : Type) where
  min : LexBound E
  max : LexBound E
  minex : Bool
  maxex : Bool

/-- `sdscmplex(value,bound)`. -/
def sdscmplex [LinearOrder E] (value : E) : LexBound E → Ordering
  | .minstring => .gt
  | .value e => compare value e
  | .maxstring => .lt

/-- `zslLexValueGteMin(value,spec)`. -/
def zslLexValueGteMin [LinearOrder E] (value : E) (spec : Lexrangespec E) : Bool :=
  if spec.minex then sdscmplex value spec.min = .gt else sdscmplex value spec.min ≠ .lt

/-- `zslLexValueLteMax(value,spec)`. -/
def zslLexValueLteMax [LinearOrder E] (value : E) (spec : Lexrangespec E) : Bool :=
  if spec.maxex then sdscmplex value spec.max = .lt else sdscmplex value spec.max ≠ .gt

/-- `zslDeleteRangeByLex(zsl,range,dict)`. -/
def zslDeleteRangeByLex [LinearOrder E] (z : Zskiplist S E) (range : Lexrangespec E) :
    Except Fault (Zskiplist S E × Nat) :=
  deleteRange z (fun _ _ e => !zslLexValueGteMin e range) fun _ _ e => zslLexValueLteMax e range

/-- `zslDeleteRangeByRank(zsl,start,end,dict)`. -/
def zslDeleteRangeByRank (z : Zskiplist S E) (start stop : Nat) : Except Fault (Zskiplist S E × Nat) :=
  deleteRange z (fun traversed _ _ => decide (traversed < start))
    fun traversed _ _ => decide (traversed ≤ stop)

end UfsRedis.Skiplist
