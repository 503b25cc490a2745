import UfsRedis.Sds

/-!
# The hash table

`src/dict.c`. A `dict` has two tables. While it is rehashed, `rehashidx` is the first bucket of
`ht[0]` that has not been moved to `ht[1]`, new entries go to `ht[1]`, and a search looks at both.

A chain of entries is a list, and a pointer to an entry is the place of the entry in its table.
`used` counts entries in memory, so it is a number without a bound. The number of buckets is not:
it is chosen by the caller of `dictExpand` before any memory is asked for, and the size of the
allocation is computed in 64 bits.
-/

namespace UfsRedis.Keyspace

variable {K V : Type}

/-- `dictEntry`. `v` is `none` until `dictSetVal` is called. -/
structure DictEntry (K V : Type) where
  key : K
  v : Option V
  deriving DecidableEq, Repr

/-- `dictht`. -/
structure Dictht (K V : Type) where
  table : Option (List (List (DictEntry K V)))
  size : Nat
  sizemask : Nat
  used : Nat
  deriving DecidableEq, Repr

/-- `dict`. `rehashidx` is `none` for -1. -/
structure Dict (K V : Type) where
  ht0 : Dictht K V
  ht1 : Dictht K V
  rehashidx : Option Nat
  iterators : Nat
  deriving DecidableEq, Repr

/-- A pointer to an entry: the table, the bucket, and the place in the chain. -/
structure EntryRef where
  second : Bool
  idx : Nat
  pos : Nat
  deriving DecidableEq, Repr

def dictReset : Dictht K V := ⟨none, 0, 0, 0⟩

def dictCreate : Dict K V := ⟨dictReset, dictReset, none, 0⟩

/-- `dictIsRehashing`. -/
def Dict.isRehashing (d : Dict K V) : Bool := d.rehashidx.isSome

/-- `d->ht[i]`. -/
def Dict.ht (d : Dict K V) (second : Bool) : Dictht K V := if second then d.ht1 else d.ht0

/-- `d->ht[i] = ht`. -/
def Dict.setHt (d : Dict K V) (second : Bool) (ht : Dictht K V) : Dict K V :=
  if second then { d with ht1 := ht } else { d with ht0 := ht }

/-- `ht->table[idx]`. -/
def Dictht.chain (ht : Dictht K V) (idx : Nat) : Except Fault (List (DictEntry K V)) :=
  match ht.table with
  | none => .error .nullDeref
  | some t =>
    match t[idx]? with
    | none => .error .indexBounds
    | some c => .ok c

/-- `ht->table[idx] = c`, in a table where `idx` has been read. -/
def Dictht.setChain (ht : Dictht K V) (idx : Nat) (c : List (DictEntry K V)) : Dictht K V :=
  { ht with table := ht.table.map (·.set idx c) }

def Dictht.push (ht : Dictht K V) (idx : Nat) (e : DictEntry K V) :
    Except Fault (Dictht K V) := do
  let c ← ht.chain idx
  return { ht.setChain idx (e :: c) with used := ht.used + 1 }

/-- An `int`: from `INT_MIN` to `INT_MAX`. -/
def inInt (n : Int) : Bool := -2147483648 ≤ n ∧ n ≤ 2147483647

/-- An `int` operation with the result `n`. -/
def checkInt (n : Int) : Except Fault Int := if inInt n then .ok n else .error .intOverflow

/-- `_dictNextPower`, with the loop that doubles `i`. -/
def dictNextPower (size : Nat) : Nat :=
  if size ≥ 2 ^ 63 - 1 then 2 ^ 63 else double 61 4
where
  double : Nat → Nat → Nat
    | 0, i => i
    | fuel + 1, i => if i ≥ size then i else double fuel (i * 2)

/-- The number of pointers that `zcalloc(realsize*sizeof(dictEntry*))` has room for. -/
def zcallocCells (realsize : Nat) : Nat := realsize * 8 % 2 ^ 64 / 8

/-- `dictExpand`; the result says whether it is `DICT_OK`. -/
def dictExpand (d : Dict K V) (size : Nat) : Dict K V × Bool :=
  let realsize := dictNextPower size
  if d.isRehashing ∨ d.ht0.used > size then (d, false)
  else if realsize = d.ht0.size then (d, false)
  else
    let n : Dictht K V := ⟨some (List.replicate (zcallocCells realsize) []), realsize,
      realsize - 1, 0⟩
    if d.ht0.table.isNone then ({ d with ht0 := n }, true)
    else ({ d with ht1 := n, rehashidx := some 0 }, true)

section

variable (hash : K → Nat)

/-- The loop of `dictRehash` over empty buckets. The second result is `empty_visits`, or `none`
where the function returns 1. -/
def skipEmpty (ht : Dictht K V) : Nat → Nat → Int → Except Fault (Nat × Option Int)
  | 0, _, _ => .error .noFuel
  | fuel + 1, r, emptyVisits => do
    let c ← ht.chain r
    if c.isEmpty then
      let emptyVisits ← checkInt (emptyVisits - 1)
      if emptyVisits = 0 then return (r + 1, none)
      skipEmpty ht fuel (r + 1) emptyVisits
    else return (r, some emptyVisits)

/-- The loop of `dictRehash` over a chain. -/
def moveChain (d : Dict K V) (c : List (DictEntry K V)) : Except Fault (Dict K V) :=
  c.foldlM (fun d e => do
    let ht1 ← d.ht1.push (hash e.key &&& d.ht1.sizemask) e
    return { d with ht0 := { d.ht0 with used := d.ht0.used - 1 }, ht1 := ht1 }) d

/-- The outer loop of `dictRehash`. The second result says whether the function returns 1 in the
loop. -/
def rehashLoop : Nat → Int → Int → Dict K V → Except Fault (Dict K V × Bool)
  | 0, n, _, d => if n ≠ 0 ∧ d.ht0.used ≠ 0 then .error .noFuel else .ok (d, false)
  | fuel + 1, n, emptyVisits, d =>
    if n ≠ 0 ∧ d.ht0.used ≠ 0 then do
      let n ← checkInt (n - 1)
      match d.rehashidx with
      | none => .error .assertFailed
      | some r =>
        if d.ht0.size ≤ r then .error .assertFailed
        else
          let (r, emptyVisits) ← skipEmpty d.ht0 (d.ht0.size - r + 1) r emptyVisits
          match emptyVisits with
          | none => .ok ({ d with rehashidx := some r }, true)
          | some emptyVisits =>
            let c ← d.ht0.chain r
            let d ← moveChain hash d c
            rehashLoop fuel n emptyVisits
              { d with ht0 := d.ht0.setChain r [], rehashidx := some (r + 1) }
    else .ok (d, false)

/-- `dictRehash`; the result says whether it is 1. A round of the loop moves an entry, so there are
no more rounds than entries. -/
def dictRehash (d : Dict K V) (n : Int) : Except Fault (Dict K V × Bool) := do
  let emptyVisits ← checkInt (n * 10)
  if !d.isRehashing then return (d, false)
  let (d, returned) ← rehashLoop hash d.ht0.used n emptyVisits d
  if returned then return (d, true)
  if d.ht0.used = 0 then
    return ({ d with ht0 := d.ht1, ht1 := dictReset, rehashidx := none }, false)
  return (d, true)

/-- `_dictRehashStep`, where it is called: only while the dict is rehashed. -/
def dictRehashStep (d : Dict K V) : Except Fault (Dict K V) :=
  if d.isRehashing then
    if d.iterators = 0 then do
      let (d, _) ← dictRehash hash d 1
      return d
    else .ok d
  else .ok d

/-- `_dictExpandIfNeeded`, with the setting `dict_can_resize`. -/
def dictExpandIfNeeded (canResize : Bool) (d : Dict K V) : Dict K V × Bool :=
  if d.isRehashing then (d, true)
  else if d.ht0.size = 0 then dictExpand d 4
  else if d.ht0.used ≥ d.ht0.size ∧ (canResize ∨ d.ht0.used / d.ht0.size > 5) then
    dictExpand d (d.ht0.used * 2)
  else (d, true)

variable [DecidableEq K]

/-- The search that `_dictKeyIndex`, `dictFind` and `dictGenericDelete` make: the chain of the key
in `ht[0]` and, while the dict is rehashed, the one in `ht[1]`. -/
def Dict.search (d : Dict K V) (key : K) : Except Fault (Option EntryRef) := do
  let idx := hash key &&& d.ht0.sizemask
  let c ← d.ht0.chain idx
  match c.findIdx? (·.key = key) with
  | some pos => return some ⟨false, idx, pos⟩
  | none =>
    if !d.isRehashing then return none
    let idx := hash key &&& d.ht1.sizemask
    let c ← d.ht1.chain idx
    return (c.findIdx? (·.key = key)).map fun pos => ⟨true, idx, pos⟩

def Dict.deref (d : Dict K V) (ref : EntryRef) : Except Fault (DictEntry K V) := do
  let ch ← (d.ht ref.second).chain ref.idx
  match ch[ref.pos]? with
  | none => .error .indexBounds
  | some e => return e

def dictSetVal (d : Dict K V) (ref : EntryRef) (val : V) : Except Fault (Dict K V) := do
  let ht := d.ht ref.second
  let c ← ht.chain ref.idx
  let e ← d.deref ref
  return d.setHt ref.second (ht.setChain ref.idx (c.set ref.pos { e with v := some val }))

/-- `_dictKeyIndex`: the index of a free slot, or `none` for -1, and `*existing`. -/
def dictKeyIndex (canResize : Bool) (d : Dict K V) (key : K) :
    Except Fault (Dict K V × Option Nat × Option EntryRef) := do
  let (d, ok) := dictExpandIfNeeded canResize d
  if !ok then return (d, none, none)
  match ← d.search hash key with
  | some ref => return (d, none, some ref)
  | none => return (d, some (hash key &&& (d.ht d.isRehashing).sizemask), none)

/-- `dictAddRaw`: the entry that was added, or `none` for `NULL`, and `*existing`. -/
def dictAddRaw (canResize : Bool) (d : Dict K V) (key : K) :
    Except Fault (Dict K V × Option EntryRef × Option EntryRef) := do
  let d ← dictRehashStep hash d
  match ← dictKeyIndex hash canResize d key with
  | (d, none, existing) => return (d, none, existing)
  | (d, some index, existing) =>
    let second := d.isRehashing
    let ht ← (d.ht second).push index ⟨key, none⟩
    return (d.setHt second ht, some ⟨second, index, 0⟩, existing)

/-- `dictAdd`; the result says whether it is `DICT_OK`. -/
def dictAdd (canResize : Bool) (d : Dict K V) (key : K) (val : V) :
    Except Fault (Dict K V × Bool) := do
  match ← dictAddRaw hash canResize d key with
  | (d, none, _) => return (d, false)
  | (d, some entry, _) => return (← dictSetVal d entry val, true)

/-- `dictReplace`; the result says whether it is 1. -/
def dictReplace (canResize : Bool) (d : Dict K V) (key : K) (val : V) :
    Except Fault (Dict K V × Bool) := do
  match ← dictAddRaw hash canResize d key with
  | (d, some entry, _) => return (← dictSetVal d entry val, true)
  | (d, none, some existing) => return (← dictSetVal d existing val, false)
  | (_, none, none) => .error .nullDeref

/-- `dictAddOrFind`; the result is the entry. -/
def dictAddOrFind (canResize : Bool) (d : Dict K V) (key : K) :
    Except Fault (Dict K V × Option (DictEntry K V)) := do
  match ← dictAddRaw hash canResize d key with
  | (d, some entry, _) => return (d, some (← d.deref entry))
  | (d, none, some existing) => return (d, some (← d.deref existing))
  | (d, none, none) => return (d, none)

/-- `dictGenericDelete`; the result is the entry that was unlinked. -/
def dictGenericDelete (d : Dict K V) (key : K) :
    Except Fault (Dict K V × Option (DictEntry K V)) := do
  if d.ht0.used = 0 ∧ d.ht1.used = 0 then return (d, none)
  let d ← dictRehashStep hash d
  match ← d.search hash key with
  | none => return (d, none)
  | some ref =>
    let he ← d.deref ref
    let ht := d.ht ref.second
    let c ← ht.chain ref.idx
    let ht' := { ht.setChain ref.idx (c.eraseIdx ref.pos) with used := ht.used - 1 }
    return (d.setHt ref.second ht', some he)

/-- `dictDelete`; the result says whether it is `DICT_OK`. -/
def dictDelete (d : Dict K V) (key : K) : Except Fault (Dict K V × Bool) := do
  let (d, he) ← dictGenericDelete hash d key
  return (d, he.isSome)

def dictUnlink (d : Dict K V) (key : K) : Except Fault (Dict K V × Option (DictEntry K V)) :=
  dictGenericDelete hash d key

def dictFind (d : Dict K V) (key : K) : Except Fault (Dict K V × Option (DictEntry K V)) := do
  if d.ht0.used + d.ht1.used = 0 then return (d, none)
  let d ← dictRehashStep hash d
  match ← d.search hash key with
  | none => return (d, none)
  | some ref => return (d, some (← d.deref ref))

end

/-! ## Runs -/

/-- A call, or a change of what the calls read: the setting that `dictEnableResize` and
`dictDisableResize` write, and the number of open safe iterators. -/
inductive DictOp (K V : Type) where
  | add (key : K) (val : V)
  | replace (key : K) (val : V)
  | addOrFind (key : K)
  | delete (key : K)
  | unlink (key : K)
  | find (key : K)
  | rehash (n : Int)
  | expand (size : Nat)
  | canResize (b : Bool)
  | iterators (n : Nat)
  deriving DecidableEq, Repr

/-- What a call returns. -/
inductive DictReply (K V : Type) where
  | status (b : Bool)
  | entry (e : Option (DictEntry K V))
  | none
  deriving DecidableEq, Repr

/-- A dict and the setting `dict_can_resize`. -/
structure DictState (K V : Type) where
  dict : Dict K V
  canResize : Bool
  deriving DecidableEq, Repr

namespace DictState

def init : DictState K V := ⟨dictCreate, true⟩

variable [DecidableEq K] (hash : K → Nat)

def step (s : DictState K V) : DictOp K V → Except Fault (DictState K V × DictReply K V)
  | .add key val => do
    let (d, b) ← dictAdd hash s.canResize s.dict key val
    return ({ s with dict := d }, .status b)
  | .replace key val => do
    let (d, b) ← dictReplace hash s.canResize s.dict key val
    return ({ s with dict := d }, .status b)
  | .addOrFind key => do
    let (d, e) ← dictAddOrFind hash s.canResize s.dict key
    return ({ s with dict := d }, .entry e)
  | .delete key => do
    let (d, b) ← dictDelete hash s.dict key
    return ({ s with dict := d }, .status b)
  | .unlink key => do
    let (d, e) ← dictUnlink hash s.dict key
    return ({ s with dict := d }, .entry e)
  | .find key => do
    let (d, e) ← dictFind hash s.dict key
    return ({ s with dict := d }, .entry e)
  | .rehash n => do
    let (d, b) ← dictRehash hash s.dict n
    return ({ s with dict := d }, .status b)
  | .expand size =>
    let (d, b) := dictExpand s.dict size
    .ok ({ s with dict := d }, .status b)
  | .canResize b => .ok ({ s with canResize := b }, .none)
  | .iterators n => .ok ({ s with dict := { s.dict with iterators := n } }, .none)

def run (s : DictState K V) : List (DictOp K V) →
    Except Fault (DictState K V × List (DictReply K V))
  | [] => .ok (s, [])
  | op :: ops => do
    let (s, r) ← s.step hash op
    let (s, rs) ← run s ops
    return (s, r :: rs)

end DictState

end UfsRedis.Keyspace
