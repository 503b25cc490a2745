import UfsRedis.Protocol.Resp

/-!
# The query buffer

`processMultibulkBuffer`, `processInputBuffer` and `readQueryFromClient` of `src/networking.c`: the
bytes that a connection receives are appended to its query buffer, and the commands that are
complete are taken from it. What has been read of a command is kept in `argv`, `multibulklen` and
`bulklen` until the rest arrives.

`processInlineBuffer` is a parameter: no command that this code writes to a link is inline. A
command that has been read is executed and the connection is reset; connections that are paused,
blocked or closed meanwhile are not modelled, and neither is `client-query-buffer-limit`.
-/

namespace UfsRedis

/-! ## Numbers and lines -/

/-- `strchr`: the index of a character before the first NUL. -/
def strchr (s : List Char) (ch : Char) : Option Nat :=
  (s.takeWhile (· ≠ '\x00')).findIdx? (· = ch)

/-- The loop of `string2ll` over the digits. -/
def string2llDigits : Nat → List Char → Option Nat
  | v, [] => some v
  | v, ch :: s =>
    if ch.isDigit then
      if v > (2 ^ 64 - 1) / 10 then none
      else if v * 10 > 2 ^ 64 - 1 - (ch.toNat - '0'.toNat) then none
      else string2llDigits (v * 10 + (ch.toNat - '0'.toNat)) s
    else none

/-- The digits of `string2ll`, without a leading zero. -/
def string2ull : List Char → Option Nat
  | [] => none
  | ch :: s => if ch.isDigit ∧ ch ≠ '0' then string2llDigits (ch.toNat - '0'.toNat) s else none

def string2ll (s : List Char) : Option Int :=
  if s = ['0'] then some 0
  else if s.head? = some '-' then do
    let v ← string2ull s.tail
    if v > 2 ^ 63 then none else some (-v)
  else do
    let v ← string2ull s
    if v > 2 ^ 63 - 1 then none else some v

/-- A `size_t` as an `int`. -/
def signedInt (n : Nat) : Int :=
  if n % 2 ^ 32 < 2 ^ 31 then (n % 2 ^ 32 : Nat) else (n % 2 ^ 32 : Nat) - 2 ^ 32

namespace Input

/-- `PROTO_IOBUF_LEN`. -/
def ioBufLen : Nat := 16 * 1024

/-- `PROTO_INLINE_MAX_SIZE`. -/
def inlineMaxSize : Nat := 64 * 1024

/-- `PROTO_MBULK_BIG_ARG`. -/
def mbulkBigArg : Nat := 32 * 1024

/-! ## The parser -/

/-- `reqtype`. -/
inductive ReqType where
  | inline
  | multibulk
  deriving DecidableEq, Repr

/-- The fields of a client that the parser reads. `bulklen` is `none` for -1, `reqtype` is `none`
for 0, and `closing` is `CLIENT_CLOSE_AFTER_REPLY`. -/
structure Reader where
  querybuf : Sds
  reqtype : Option ReqType
  multibulklen : Nat
  bulklen : Option Nat
  argv : List Sds
  replies : List String
  closing : Bool
  deriving DecidableEq, Repr

def Reader.fresh : Reader := ⟨[], none, 0, none, [], [], false⟩

/-- `addReplyError` and `setProtocolError`. -/
def setProtocolError (c : Reader) (reply : String) (pos : Nat) : Reader :=
  { c with
    querybuf := c.querybuf.drop pos
    replies := c.replies ++ [reply]
    closing := true }

def resetClient (c : Reader) : Reader :=
  { c with argv := [], reqtype := none, multibulklen := 0, bulklen := none }

/-- What the search for a line with a number gives: nothing yet, an error, or the number and the
position behind the line. -/
inductive Line where
  | wait
  | error (c : Reader)
  | number (pos : Nat) (ll : Int)
  deriving DecidableEq, Repr

def mbulkHeader (c : Reader) : Except Fault Line :=
  if c.argv ≠ [] then .error .assertFailed
  else
    match strchr c.querybuf '\r' with
    | none =>
      if c.querybuf.length > inlineMaxSize then
        .ok (.error (setProtocolError c "Protocol error: too big mbulk count string" 0))
      else .ok .wait
    | some newline =>
      if (newline : Int) > signedInt c.querybuf.length - 2 then .ok .wait
      else if c.querybuf.head? ≠ some '*' then .error .assertFailed
      else
        match string2ll ((c.querybuf.take newline).drop 1) with
        | none => .ok (.error (setProtocolError c "Protocol error: invalid multibulk length" 0))
        | some ll =>
          if ll > 1024 * 1024 then
            .ok (.error (setProtocolError c "Protocol error: invalid multibulk length" 0))
          else .ok (.number (newline + 2) ll)

def bulkHeader (maxBulk pos : Nat) (c : Reader) : Line :=
  let s := c.querybuf.drop pos
  match strchr s '\r' with
  | none =>
    if c.querybuf.length > inlineMaxSize then
      .error (setProtocolError c "Protocol error: too big bulk count string" 0)
    else .wait
  | some i =>
    if (pos + i : Int) > signedInt c.querybuf.length - 2 then .wait
    else if s.head? ≠ some '$' then
      .error (setProtocolError c
        ("Protocol error: expected '$', got '" ++ String.singleton (s.headD '\x00') ++ "'") pos)
    else
      match string2ll ((s.take i).drop 1) with
      | none => .error (setProtocolError c "Protocol error: invalid bulk length" pos)
      | some ll =>
        if ll < 0 ∨ ll > maxBulk then
          .error (setProtocolError c "Protocol error: invalid bulk length" pos)
        else .number (pos + i + 2) ll

/-- What the first half of the loop gives: nothing yet, an error, or the length of the argument. -/
inductive Bulk where
  | wait
  | error (c : Reader)
  | len (pos : Nat) (c : Reader) (len : Nat)
  deriving DecidableEq, Repr

/-- The length of the argument, from the client or from its line. A big argument is moved to the
front of the buffer. -/
def bulkLen (maxBulk pos : Nat) (c : Reader) : Bulk :=
  match c.bulklen with
  | some len => .len pos c len
  | none =>
    match bulkHeader maxBulk pos c with
    | .wait => .wait
    | .error c => .error c
    | .number pos ll =>
      if ll.toNat ≥ mbulkBigArg then
        .len 0 { c with querybuf := c.querybuf.drop pos, bulklen := some ll.toNat } ll.toNat
      else .len pos { c with bulklen := some ll.toNat } ll.toNat

/-- The argument, with the end of its line. The buffer becomes the argument if it has nothing
else and the argument is big. -/
def takeBulk (pos : Nat) (c : Reader) (len : Nat) : Option (Nat × Reader) :=
  if c.querybuf.length - pos < len + 2 then none
  else if pos = 0 ∧ len ≥ mbulkBigArg ∧ c.querybuf.length = len + 2 then
    some (0, { c with
      argv := c.argv ++ [c.querybuf.take len]
      querybuf := []
      bulklen := none
      multibulklen := c.multibulklen - 1 })
  else
    some (pos + len + 2, { c with
      argv := c.argv ++ [(c.querybuf.drop pos).take len]
      bulklen := none
      multibulklen := c.multibulklen - 1 })

/-- How the loop over the arguments ends: the function returns `C_ERR`, or the loop is left. -/
inductive Bulks where
  | error (c : Reader)
  | leave (pos : Nat) (c : Reader)
  deriving DecidableEq, Repr

/-- The loop over the arguments; the first argument is `multibulklen`. -/
def readBulks (maxBulk : Nat) : Nat → Nat → Reader → Bulks
  | 0, pos, c => .leave pos c
  | n + 1, pos, c =>
    match bulkLen maxBulk pos c with
    | .wait => .leave pos c
    | .error c => .error c
    | .len pos c len =>
      match takeBulk pos c len with
      | none => .leave pos c
      | some (pos, c) => readBulks maxBulk n pos c

/-- The part of `processMultibulkBuffer` after the number of arguments is known; the result says
whether it is `C_OK`. -/
def finishBulks (maxBulk pos : Nat) (c : Reader) : Reader × Bool :=
  match readBulks maxBulk c.multibulklen pos c with
  | .error c => (c, false)
  | .leave pos c => ({ c with querybuf := c.querybuf.drop pos }, c.multibulklen == 0)

def processMultibulkBuffer (maxBulk : Nat) (c : Reader) : Except Fault (Reader × Bool) :=
  if c.multibulklen = 0 then do
    match ← mbulkHeader c with
    | .wait => return (c, false)
    | .error c => return (c, false)
    | .number pos ll =>
      if ll ≤ 0 then return ({ c with querybuf := c.querybuf.drop pos }, true)
      return finishBulks maxBulk pos { c with multibulklen := ll.toNat, argv := [] }
  else .ok (finishBulks maxBulk 0 c)

variable (processInlineBuffer : Reader → Reader × Bool) (maxBulk : Nat)

/-- The loop of `processInputBuffer`, with the commands that are executed. -/
def processInput : Nat → Reader → Except Fault (Reader × List (List Sds))
  | fuel, c =>
    if c.querybuf = [] then .ok (c, [])
    else if c.closing then .ok (c, [])
    else
      match fuel with
      | 0 => .error .noFuel
      | fuel + 1 => do
        let reqtype := c.reqtype.getD
          (if c.querybuf.head? = some '*' then .multibulk else .inline)
        let c := { c with reqtype := some reqtype }
        let (c, ok) ← match reqtype with
          | .inline => .ok (processInlineBuffer c)
          | .multibulk => processMultibulkBuffer maxBulk c
        if !ok then return (c, [])
        let (c', out) ← processInput fuel (resetClient c)
        return (c', if c.argv = [] then out else c.argv :: out)

/-- `processInputBuffer`. A round of the loop takes a byte from the buffer. -/
def processInputBuffer (c : Reader) : Except Fault (Reader × List (List Sds)) :=
  processInput processInlineBuffer maxBulk c.querybuf.length c

/-- The number of bytes that `readQueryFromClient` asks for. -/
def Reader.readlen (c : Reader) : Nat :=
  match c.bulklen with
  | none => ioBufLen
  | some len =>
    if c.reqtype = some .multibulk ∧ c.multibulklen ≠ 0 ∧ len ≥ mbulkBigArg then
      min ioBufLen (len + 2 - c.querybuf.length)
    else ioBufLen

/-- `readQueryFromClient`, where `read` gives `bytes`. -/
def readQueryFromClient (c : Reader) (bytes : Sds) : Except Fault (Reader × List (List Sds)) :=
  processInputBuffer processInlineBuffer maxBulk { c with querybuf := c.querybuf ++ bytes }

/-- One read after another, with the commands that are executed. -/
def readAll (c : Reader) : List Sds → Except Fault (Reader × List (List Sds))
  | [] => .ok (c, [])
  | bytes :: reads => do
    let (c, out) ← readQueryFromClient processInlineBuffer maxBulk c bytes
    let (c, out') ← readAll c reads
    return (c, out ++ out')

/-- Each read gives a byte, and no more than it asks for. -/
def ReadsFit (c : Reader) : List Sds → Prop
  | [] => True
  | bytes :: reads => bytes ≠ [] ∧ bytes.length ≤ c.readlen ∧
    ∀ c' out, readQueryFromClient processInlineBuffer maxBulk c bytes = .ok (c', out) →
      ReadsFit c' reads

/-- Whether reads fit can be checked by making them. -/
instance decidableReadsFit : (c : Reader) → (reads : List Sds) →
    Decidable (ReadsFit processInlineBuffer maxBulk c reads)
  | _, [] => isTrue trivial
  | c, bytes :: reads =>
    match h : readQueryFromClient processInlineBuffer maxBulk c bytes with
    | .error _ => decidable_of_iff (bytes ≠ [] ∧ bytes.length ≤ c.readlen)
      ⟨fun hf => ⟨hf.1, hf.2, fun _ _ hr => by simp [h] at hr⟩, fun hf => ⟨hf.1, hf.2.1⟩⟩
    | .ok (c', out) =>
      have := decidableReadsFit c' reads
      decidable_of_iff (bytes ≠ [] ∧ bytes.length ≤ c.readlen ∧
          ReadsFit processInlineBuffer maxBulk c' reads)
        (and_congr_right fun _ => and_congr_right fun _ =>
          ⟨fun hf _ _ hr => by cases h.symm.trans hr; exact hf, fun hf => hf c' out h⟩)

end Input

end UfsRedis
