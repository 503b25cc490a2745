import UfsRedis.Sds

/-!
# The string scanners of `src/ot.c`

A content string has classes separated by `/`, each a list of names separated by `,`. The functions
below work on the characters. A pointer `buf + j` into a string is the rest of the string from `j`
on; `buf[j-1]` is the character before it, if any (`prev`).

A loop that the C code bounds by the terminator takes fuel: one unit for each turn. The length of
the scanned string is enough for every call below.
-/

namespace UfsRedis

/-- The elements that `sdsDel` keeps: an element that is in `del` is dropped from both lists. -/
def delElements : List Sds → List Sds → List Sds
  | [], _ => []
  | e :: elements, del =>
    if e ∈ del then delElements elements (del.erase e) else e :: delElements elements del

/-- The outer `for` of `sdsDel` on its two arrays. A name of both is taken out of both by moving up
what follows it, and `i` stays. -/
def delLoop : Nat → List Sds → List Sds → Nat → Except Fault (List Sds)
  | 0, _, _, _ => .error .noFuel
  | n + 1, elements, del, i =>
    match elements[i]? with
    | none => .ok elements
    | some e =>
      match del.idxOf? e with
      | some j => delLoop n (elements.eraseIdx i) (del.eraseIdx j) i
      | none => delLoop n elements del (i + 1)

/-- `sdsDel(list,t)`: the names of `list` without those of `t`. -/
def sdsDel (list t : Sds) : Sds :=
  sdsjoin (delElements (sdssplit list ',') (sdssplit t ',')) ','

/-- `firstOfsdsDel(list,t)`: the first nonempty name of `list` that is not in `t`. -/
def firstOfsdsDel (list t : Sds) : Sds :=
  ((delElements (sdssplit list ',') (sdssplit t ',')).find? (· ≠ [])).getD []

/-- The first name of `v`. A list of names is copied into `char r[10]` up to its first comma. -/
def firstName (v : Sds) : Except Fault Sds :=
  if ',' ∈ v then
    let r := v.takeWhile (· ≠ ',')
    if r.length < 10 then .ok r else .error .bufferOverflow
  else .ok v

/-- The inner `while` of `findstr` and `sameClass`: compares the rest `b` of the string with the
name `s`. `none` if the name is there (`left`: a separator is before it; `fin`: one is after it),
else the number of characters that are equal. -/
def matchName (fin : Option Char → Bool) (left : Bool) : Sds → Sds → Except Fault (Option Nat)
  | [], [] => .error .readPastEnd
  | x :: b, y :: s =>
    if x = y then
      if s = [] then .ok (if left && fin b.head? then none else some 1)
      else do
        let r ← matchName fin left b s
        .ok (r.map (· + 1))
    else .ok (some 0)
  | _, _ => .ok (some 0)

def commaEnd (c : Option Char) : Bool := c == none || c == some ','

/-- A name of a content string ends at the terminator, a comma or a slash. -/
def classEnd (c : Option Char) : Bool := c == none || c == some ',' || c == some '/'

/-- The `do` loop of `findstr`. -/
def findstrLoop (s : Sds) : Nat → Option Char → Sds → Except Fault Bool
  | 0, _, _ => .error .noFuel
  | n + 1, prev, b => do
    match ← matchName commaEnd (prev == none || prev == some ',') b s with
    | none => .ok true
    | some i =>
      if b.length < max i 1 then .error .readPastEnd
      else
        match (b.drop (max i 1)).dropWhile (· ≠ ',') with
        | [] => .ok false
        | c :: b => if b = [] then .ok false else findstrLoop s n (some c) b

/-- `findstr(buf,v)`: the first name of `v` is a name of `buf`. -/
def findstr (buf v : Sds) : Except Fault Bool := do
  let s ← firstName v
  findstrLoop s (buf.length + 1) none buf

/-- The first `do` loop of `sameClass`: the class of `s`, from its first character on. `start` is
the class that the scan is in. -/
def sameClassStart (s : Sds) : Nat → Option Char → Sds → Sds → Except Fault Sds
  | 0, _, _, _ => .error .noFuel
  | n + 1, prev, start, b => do
    match ← matchName classEnd (prev == none || prev == some ',' || prev == some '/') b s with
    | none => .ok start
    | some i =>
      if b.length < max i 1 then .error .readPastEnd
      else
        match (b.drop (max i 1)).dropWhile fun c => c ≠ ',' ∧ c ≠ '/' with
        | [] => .error .readPastEnd
        | c :: b =>
          let start := if c = '/' then b else start
          if b = [] then .ok start else sameClassStart s n (some c) start b

/-- The second loop of `sameClass`: looks for `v` in the class. -/
def sameClassFind (v : Sds) : Nat → Option Char → Sds → Except Fault Bool
  | 0, _, _ => .error .noFuel
  | n + 1, prev, b =>
    if b.head? = none ∨ b.head? = some '/' then .ok false
    else do
      match ← matchName classEnd (prev == none || prev == some ',') b v with
      | none => .ok true
      | some i => sameClassFind v n (b.drop (max i 1 - 1)).head? (b.drop (max i 1))

/-- `sameClass(buf,s,v)`: `v` is in the class of `s`. -/
def sameClass (buf s v : Sds) : Except Fault Bool := do
  let start ← sameClassStart s (buf.length + 1) none buf buf
  sameClassFind v (start.length + 1) none start

/-- Which operations `otUfs` transforms: `OT_SPLIT` or `OT_UNION`. -/
inductive OtFlag where
  | split
  | union
  deriving DecidableEq, Repr

/-- The inner `while` of `cpltClass`: `sub` is at `b`, with separators around it. -/
def cpltMatch (left : Bool) : Sds → Sds → Except Fault Bool
  | [], [] => .error .readPastEnd
  | x :: b, y :: sub =>
    if x = y then
      if sub = [] ∧ (left && classEnd b.head?) then .ok true else cpltMatch left b sub
    else .ok false
  | _, _ => .ok false

/-- The `for` loop of `cpltClass` over `n` places of a class. -/
def cpltFind (sub : Sds) : Nat → Option Char → Sds → Except Fault Bool
  | 0, _, _ => .ok false
  | n + 1, prev, b => do
    if ← cpltMatch (prev == none || prev == some ',') b sub then .ok true
    else cpltFind sub n b.head? b.tail

/-- The outer `while` of `cpltClass`, one class a turn. -/
def cpltLoop (s sub : Sds) (type : OtFlag) : Nat → Sds → Except Fault Sds
  | 0, _ => .error .noFuel
  | _ + 1, [] => .ok []
  | n + 1, c :: b =>
    match if c = '/' then b else c :: b with
    | [] => .error .readPastEnd
    | x :: b => do
      let cls := x :: b.takeWhile (· ≠ '/')
      let rest := (x :: b).drop cls.length
      let commaClass := cls.dropLast.count ','
      if (s.count ',' < commaClass ∧ s.length < cls.length) ∨
          (s.count ',' = commaClass ∧ cls.length = s.length) then
        if ← cpltFind sub (cls.length + 1 - sub.length) none (x :: b) then
          if cls.length = s.length then .ok star
          else
            match type with
            | .split => .ok (sdsDel cls s)
            | .union => .ok (firstOfsdsDel cls s)
        else cpltLoop s sub type n rest
      else cpltLoop s sub type n rest

/-- `cpltClass(buf,s,type)`: what is left of the class of `s` without `s`, or `*`. -/
def cpltClass (buf : Sds) (s : Option Sds) (type : OtFlag) : Except Fault Sds :=
  match s with
  | none => .ok star
  | some s => do
    let sub ← firstName s
    cpltLoop s sub type (buf.length + 1) buf

end UfsRedis
