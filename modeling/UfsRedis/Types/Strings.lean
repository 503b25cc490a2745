import UfsRedis.Lib.Bytes
import UfsRedis.Protocol.Multibulk

/-!
# Numbers in the commands of strings

`INCR` and its relatives, `SETRANGE`, `APPEND`, the commands that set an expire time, ranges and the
offsets of bits compute with numbers of a client in C arithmetic. An operation on signed numbers
whose result does not fit is a fault; a size is an unsigned number of 64 bits. A string object is the
string: the encoding as an integer is that of its decimal form.
-/

namespace UfsRedis.Strings

open List

/-- The numbers of a `long long`. -/
def IsLongLong (v : Int) : Prop := -2 ^ 63 ≤ v ∧ v < 2 ^ 63

instance (v : Int) : Decidable (IsLongLong v) := inferInstanceAs (Decidable (_ ∧ _))

/-- The result `v` of an operation on `long long`s. -/
def longLong (v : Int) : Except Fault Int := if IsLongLong v then .ok v else .error .intOverflow

variable {v value d n : Int} {s param : Sds} {e : Entry}

theorem longLong_eq (h : IsLongLong v) : longLong v = .ok v := if_pos h

inductive Value where
  | str (s : Sds)
  | other
  deriving DecidableEq

inductive Reply where
  | int (n : Int)
  | ok
  | null
  | wrongType
  | error (msg : String)
  deriving DecidableEq

/-- The value and the expire time of a key, in milliseconds. -/
structure Entry where
  value : Option Value
  expire : Option Int
  deriving DecidableEq

def notInteger : Reply := .error "value is not an integer or out of range"

/-- `getLongLongFromObject`; the type was checked before. -/
def getLongLongFromObject : Option Value → Option Int
  | none => some 0
  | some (.str s) => string2ll s
  | some .other => none

theorem isLongLong_of_string2ll (h : string2ll s = some v) : IsLongLong v := by
  unfold string2ll at h
  split at h
  · cases h
    decide
  split at h <;>
  · obtain ⟨w, -, h⟩ := Option.bind_eq_some_iff.mp h
    split at h <;> cases h
    unfold IsLongLong
    omega

/-! ## Increments -/

/-- `createStringObjectFromLongLong`. -/
def ofLongLong (v : Int) : Sds := if v < 0 then '-' :: ll2string (-v).toNat else ll2string v.toNat

def wouldOverflow : Reply := .error "increment or decrement would overflow"

/-- The test for an overflow in `incrDecrCommand`. -/
def overflows (value incr : Int) : Except Fault Bool :=
  if incr < 0 ∧ value < 0 then do return decide (incr < (← longLong (-2 ^ 63 - value)))
  else if incr > 0 ∧ value > 0 then do return decide (incr > (← longLong (2 ^ 63 - 1 - value)))
  else .ok false

/-- The addition of `incrDecrCommand`. -/
def incrValue (e : Entry) (value incr : Int) : Except Fault (Entry × Reply) := do
  if ← overflows value incr then return (e, wouldOverflow)
  let value ← longLong (value + incr)
  return ({ e with value := some (.str (ofLongLong value)) }, .int value)

def incrDecrCommand (e : Entry) (incr : Int) : Except Fault (Entry × Reply) :=
  if e.value = some .other then .ok (e, .wrongType)
  else match getLongLongFromObject e.value with
    | none => .ok (e, notInteger)
    | some value => incrValue e value incr

def incrCommand (e : Entry) : Except Fault (Entry × Reply) := incrDecrCommand e 1

def decrCommand (e : Entry) : Except Fault (Entry × Reply) := incrDecrCommand e (-1)

def incrbyCommand (e : Entry) (arg : Sds) : Except Fault (Entry × Reply) :=
  match string2ll arg with
  | none => .ok (e, notInteger)
  | some incr => incrDecrCommand e incr

def decrbyCommand (e : Entry) (arg : Sds) : Except Fault (Entry × Reply) :=
  match string2ll arg with
  | none => .ok (e, notInteger)
  | some incr => do incrDecrCommand e (← longLong (-incr))

/-- The four commands. -/
inductive IncrCmd where
  | incr
  | decr
  | incrby (arg : Sds)
  | decrby (arg : Sds)

def IncrCmd.run (e : Entry) : IncrCmd → Except Fault (Entry × Reply)
  | incr => incrCommand e
  | decr => decrCommand e
  | incrby arg => incrbyCommand e arg
  | decrby arg => decrbyCommand e arg

/-- What a command adds, if its argument is accepted. -/
def IncrCmd.delta : IncrCmd → Option Int
  | incr => some 1
  | decr => some (-1)
  | incrby arg => string2ll arg
  | decrby arg => (string2ll arg).map (-·)

/-- The exact addition, or the error. -/
def Entry.added (e : Entry) (sum : Int) : Entry × Reply :=
  if IsLongLong sum then ({ e with value := some (.str (ofLongLong sum)) }, .int sum)
  else (e, wouldOverflow)

/-- The test is exact: where both numbers have one sign the difference fits, else the sum does. -/
theorem overflows_eq (hvalue : IsLongLong value) (hd : IsLongLong d) :
    overflows value d = .ok (decide (¬IsLongLong (value + d))) := by
  unfold IsLongLong at hvalue hd
  unfold overflows
  split
  · rw [longLong_eq (by unfold IsLongLong; omega), ok_bind, pure_eq_ok]
    grind [IsLongLong]
  split
  · rw [longLong_eq (by unfold IsLongLong; omega), ok_bind, pure_eq_ok]
    grind [IsLongLong]
  · grind [IsLongLong]

theorem incrValue_eq (e : Entry) (hvalue : IsLongLong value) (hd : IsLongLong d) :
    incrValue e value d = .ok (e.added (value + d)) := by
  unfold incrValue Entry.added
  rw [overflows_eq hvalue hd, ok_bind]
  by_cases hsum : IsLongLong (value + d)
  · simp [hsum, longLong_eq hsum]
  · simp [hsum]

theorem incrDecrCommand_eq (hv : getLongLongFromObject e.value = some value) (hd : IsLongLong d) :
    incrDecrCommand e d = .ok (e.added (value + d)) := by
  have hother : e.value ≠ some .other := by
    intro h
    rw [h] at hv
    cases hv
  have hvalue : IsLongLong value := by
    rcases h : e.value with _ | v
    · rw [h] at hv
      cases hv
      decide
    cases v with
    | other => exact absurd h hother
    | str s =>
      rw [h] at hv
      exact isLongLong_of_string2ll hv
  unfold incrDecrCommand
  rw [if_neg hother, hv]
  exact incrValue_eq e hvalue hd

/-- `INCR`, `DECR`, `INCRBY` and `DECRBY` add exactly or reply with the overflow error, but for
`DECRBY` with the smallest number, which has no negation. -/
theorem incr_exact_iff {e : Entry} {cmd : IncrCmd} {value d : Int}
    (hv : getLongLongFromObject e.value = some value) (hd : cmd.delta = some d) :
    cmd.run e = .ok (e.added (value + d)) ↔ d ≠ 2 ^ 63 := by
  cases cmd with
  | incr =>
    cases hd
    exact iff_of_true (incrDecrCommand_eq hv (by decide)) (by decide)
  | decr =>
    cases hd
    exact iff_of_true (incrDecrCommand_eq hv (by decide)) (by decide)
  | incrby arg =>
    have hd : string2ll arg = some d := hd
    have hrange := isLongLong_of_string2ll hd
    have hrun : (IncrCmd.incrby arg).run e = incrDecrCommand e d := by
      simp only [IncrCmd.run, incrbyCommand, hd]
    exact iff_of_true (hrun.trans (incrDecrCommand_eq hv hrange)) (Int.ne_of_lt hrange.2)
  | decrby arg =>
    obtain ⟨n, hn, rfl⟩ := Option.map_eq_some_iff.mp hd
    have hrange := isLongLong_of_string2ll hn
    have hrun : (IncrCmd.decrby arg).run e = (do incrDecrCommand e (← longLong (-n))) := by
      simp only [IncrCmd.run, decrbyCommand, hn]
    unfold IsLongLong at hrange
    rw [hrun]
    by_cases hmin : -n = 2 ^ 63
    · rw [longLong, if_neg (by unfold IsLongLong; omega)]
      exact iff_of_false nofun (not_not_intro hmin)
    have hneg : IsLongLong (-n) := by
      unfold IsLongLong
      omega
    rw [longLong_eq hneg, ok_bind]
    exact iff_of_true (incrDecrCommand_eq hv hneg) hmin

theorem incr_exact_iff_decrby : (IncrCmd.decrby ['5']).run ⟨some (.str ['7']), none⟩ =
      .ok (⟨some (.str ['2']), none⟩, .int 2) :=
  (@incr_exact_iff ⟨some (.str ['7']), none⟩ (.decrby ['5']) _ _ rfl rfl).mpr (by decide)

/-- `DECRBY` with `LLONG_MIN` on a missing key: the exact result does not fit, and the negation
overflows before that is tested. -/
theorem decrby_min_overflows :
    decrbyCommand ⟨none, none⟩ "-9223372036854775808".toList = .error .intOverflow := by
  decide

/-! ## The length of a string -/

/-- 512 MB. -/
def maxLength : Nat := 512 * 1024 * 1024

def tooLong : Reply := .error "string exceeds maximum allowed size (512MB)"

/-- `checkStringLength`: the `size_t` is passed as a `long long`. -/
def checkStringLength (size : Nat) : Bool :=
  decide ((if size < 2 ^ 63 then (size : Int) else size - 2 ^ 64) ≤ maxLength)

/-- A string of `n` bytes is allocated. There is never memory for more than `PTRDIFF_MAX` bytes, and
without memory the server stops. -/
def allocate (n : Nat) : Except Fault Unit := if n < 2 ^ 63 then .ok () else .error .assertFailed

/-- `old` with `value` at `offset`, filled up with zeros. -/
def withRange (old : Sds) (offset : Nat) (value : Sds) : Sds :=
  Lib.overwrite (old ++ List.replicate (offset + value.length - old.length) '\x00') offset value

/-- The string is stored that was computed with the given size, if the size passes the test. -/
def store (e : Entry) (size : Nat) (s : Sds) : Except Fault (Entry × Reply) := do
  if !checkStringLength (size % 2 ^ 64) then return (e, tooLong)
  allocate (size % 2 ^ 64)
  return ({ e with value := some (.str s) }, .int s.length)

/-- `setrangeCommand` once the offset is read and `value` is not empty; `old` is empty for a missing
key. -/
def setrange (e : Entry) (old : Sds) (offset : Nat) (value : Sds) : Except Fault (Entry × Reply) :=
  store e (offset + value.length) (withRange old offset value)

def setrangeCommand (e : Entry) (offset value : Sds) : Except Fault (Entry × Reply) :=
  match string2ll offset with
  | none => .ok (e, notInteger)
  | some offset =>
    if offset < 0 then .ok (e, .error "offset is out of range")
    else match e.value with
      | none => if value = [] then .ok (e, .int 0) else setrange e [] offset.toNat value
      | some .other => .ok (e, .wrongType)
      | some (.str s) => if value = [] then .ok (e, .int s.length) else setrange e s offset.toNat value

def appendCommand (e : Entry) (value : Sds) : Except Fault (Entry × Reply) :=
  match e.value with
  | none => .ok ({ e with value := some (.str value) }, .int value.length)
  | some .other => .ok (e, .wrongType)
  | some (.str s) => store e (s.length + value.length) (s ++ value)

/-- The string of a key; a missing key counts as the empty one. -/
def Entry.string : Entry → Option Sds
  | ⟨none, _⟩ => some []
  | ⟨some (.str s), _⟩ => some s
  | ⟨some .other, _⟩ => none

/-- The string is stored and its length replied, or it is too long and nothing changes. -/
def Entry.stored (e : Entry) (s : Sds) : Entry × Reply :=
  if s.length ≤ maxLength then ({ e with value := some (.str s) }, .int s.length) else (e, tooLong)

theorem Entry.eq_of_string (h : e.string = some old) :
    (e.value = none ∧ old = []) ∨ e.value = some (.str old) := by
  rcases e with ⟨_ | _ | _, _⟩ <;> simp_all [Entry.string]

theorem length_withRange (old : Sds) (offset : Nat) (value : Sds) :
    (withRange old offset value).length = max old.length (offset + value.length) := by
  simp only [withRange, Lib.overwrite, length_append, length_take, length_drop, length_replicate]
  omega

theorem store_iff (e : Entry) (hsize : size < 2 ^ 64) (hle : size ≤ s.length) :
    store e size s = .ok (e.stored s) ↔
      size < 2 ^ 63 ∧ (s.length ≤ maxLength ∨ maxLength < size) := by
  unfold store Entry.stored
  rw [Nat.mod_eq_of_lt hsize]
  by_cases hfit : size < 2 ^ 63
  · rw [checkStringLength, if_pos hfit, allocate, if_pos hfit]
    by_cases hn : size ≤ maxLength
    · by_cases hs : s.length ≤ maxLength
      · simpa [hn, hs] using hfit
      · simp [hn, hs, tooLong]
    have hs : ¬s.length ≤ maxLength := by omega
    simpa [hn, hs] using ⟨hfit, Nat.lt_of_not_le hn⟩
  -- the size is a negative `long long`
  have hcheck : checkStringLength size = true := by
    rw [checkStringLength, if_neg hfit, decide_eq_true_eq]
    omega
  rw [hcheck, allocate, if_neg hfit]
  exact iff_of_false nofun fun h => hfit h.1

/-- `SETRANGE` and `APPEND` succeed iff the string has at most 512 MB, but for an offset with which the
size does not fit a `long long`, a string that is too long already, and an `APPEND` that creates the
key, which is not tested. -/
theorem string_limit_iff {e : Entry} {old value : Sds} (he : e.string = some old)
    (hlen : old.length + value.length < 2 ^ 63) :
    (∀ offset off, string2ll offset = some off → 0 ≤ off → value ≠ [] →
      (setrangeCommand e offset value = .ok (e.stored (withRange old off.toNat value)) ↔
        off + value.length < 2 ^ 63 ∧ (old.length ≤ maxLength ∨ maxLength < off + value.length))) ∧
    (appendCommand e value = .ok (e.stored (old ++ value)) ↔
      (e.value = none → value.length ≤ maxLength)) := by
  constructor
  · intro offset off hoff hpos hne
    have hrange := (isLongLong_of_string2ll hoff).2
    have hrun : setrangeCommand e offset value = setrange e old off.toNat value := by
      rcases Entry.eq_of_string he with ⟨hv, rfl⟩ | hv <;>
        simp only [setrangeCommand, hoff, hv, if_neg (Int.not_lt.mpr hpos), if_neg hne]
    rw [hrun, setrange, store_iff e (by omega) (by rw [length_withRange]; omega), length_withRange]
    omega
  unfold appendCommand
  rcases Entry.eq_of_string he with ⟨hv, hold⟩ | hv
  · rw [hv, hold, nil_append, Entry.stored]
    split <;> simp_all [tooLong]
  rw [hv]
  rw [store_iff e (by omega) (by rw [length_append]), length_append]
  simp only [reduceCtorEq, false_imp_iff, iff_true]
  omega

theorem string_limit_iff_setrange : setrangeCommand ⟨some (.str ['a']), none⟩ ['2'] ['b'] =
      .ok (⟨some (.str ['a', '\x00', 'b']), none⟩, .int 3) :=
  ((@string_limit_iff ⟨some (.str ['a']), none⟩ _ ['b'] rfl (by decide)).1 ['2'] 2 rfl (by decide)
    (by decide)).mpr (by decide)

/-- The size of `SETRANGE` with the offset `LONG_MAX` passes the test, and the server stops. -/
theorem setrange_passes :
    setrangeCommand ⟨none, none⟩ "9223372036854775807".toList ['b'] = .error .assertFailed := by
  decide

/-! ## Expire times -/

inductive TimeUnit where
  | seconds
  | milliseconds

def TimeUnit.ms : TimeUnit → Int
  | .seconds => 1000
  | .milliseconds => 1

def toMs : TimeUnit → Int → Except Fault Int
  | .seconds, n => longLong (n * 1000)
  | .milliseconds, n => .ok n

/-- The readings of `mstime` by a command, and whether the server loads its data or is a slave. -/
structure Clock where
  start : Int
  now : Int
  passive : Bool

/-- The end of `expireGenericCommand`, with the time that was computed. -/
def Entry.expireAt (e : Entry) (due : Int) (clock : Clock) : Entry × Reply :=
  if e.value = none then (e, .int 0)
  else if due ≤ clock.now ∧ clock.passive = false then (⟨none, none⟩, .int 1)
  else ({ e with expire := some due }, .int 1)

def expireGenericCommand (e : Entry) (param : Sds) (basetime : Int) (unit : TimeUnit)
    (clock : Clock) : Except Fault (Entry × Reply) :=
  match string2ll param with
  | none => .ok (e, notInteger)
  | some n => do
    let ms ← toMs unit n
    let due ← longLong (ms + basetime)
    return e.expireAt due clock

def expireCommand (e : Entry) (param : Sds) (clock : Clock) : Except Fault (Entry × Reply) :=
  expireGenericCommand e param clock.start .seconds clock

def expireatCommand (e : Entry) (param : Sds) (clock : Clock) : Except Fault (Entry × Reply) :=
  expireGenericCommand e param 0 .seconds clock

def pexpireCommand (e : Entry) (param : Sds) (clock : Clock) : Except Fault (Entry × Reply) :=
  expireGenericCommand e param clock.start .milliseconds clock

def pexpireatCommand (e : Entry) (param : Sds) (clock : Clock) : Except Fault (Entry × Reply) :=
  expireGenericCommand e param 0 .milliseconds clock

/-- The flags `NX` and `XX` of `SET`. -/
structure SetFlags where
  nx : Bool
  xx : Bool

/-- The condition of `setGenericCommand` on the key is not met. -/
def SetFlags.abort (flags : SetFlags) (e : Entry) : Bool :=
  (flags.nx && e.value.isSome) || (flags.xx && e.value.isNone)

def invalidExpire (name : String) : Reply := .error ("invalid expire time in " ++ name)

/-- `setGenericCommand` with the default replies, for the command `name`. -/
def setGenericCommand (name : String) (flags : SetFlags) (e : Entry) (val : Sds)
    (expire : Option (Sds × TimeUnit)) (clock : Clock) : Except Fault (Entry × Reply) :=
  match expire with
  | none => .ok (if flags.abort e then (e, .null) else (⟨some (.str val), none⟩, .ok))
  | some (param, unit) =>
    match string2ll param with
    | none => .ok (e, notInteger)
    | some n =>
      if n ≤ 0 then .ok (e, invalidExpire name)
      else do
        let ms ← toMs unit n
        if flags.abort e then return (e, .null)
        return (⟨some (.str val), some (← longLong (ms + clock.now))⟩, .ok)

def setexCommand (e : Entry) (param val : Sds) (clock : Clock) : Except Fault (Entry × Reply) :=
  setGenericCommand "setex" ⟨false, false⟩ e val (some (param, .seconds)) clock

def psetexCommand (e : Entry) (param val : Sds) (clock : Clock) : Except Fault (Entry × Reply) :=
  setGenericCommand "psetex" ⟨false, false⟩ e val (some (param, .milliseconds)) clock

/-- The commands with an expire time; the options of `SET` are parsed. -/
inductive ExpireCmd where
  | expire
  | expireat
  | pexpire
  | pexpireat
  | setex (val : Sds)
  | psetex (val : Sds)
  | set (flags : SetFlags) (unit : TimeUnit) (val : Sds)

namespace ExpireCmd

def run (e : Entry) (param : Sds) (clock : Clock) : ExpireCmd → Except Fault (Entry × Reply)
  | expire => expireCommand e param clock
  | expireat => expireatCommand e param clock
  | pexpire => pexpireCommand e param clock
  | pexpireat => pexpireatCommand e param clock
  | setex val => setexCommand e param val clock
  | psetex val => psetexCommand e param val clock
  | set flags unit val => setGenericCommand "set" flags e val (some (param, unit)) clock

def unit : ExpireCmd → TimeUnit
  | expire | expireat | setex _ => .seconds
  | pexpire | pexpireat | psetex _ => .milliseconds
  | set _ unit _ => unit

/-- The time that the argument is relative to. -/
def base (clock : Clock) : ExpireCmd → Int
  | expire | pexpire => clock.start
  | expireat | pexpireat => 0
  | setex _ | psetex _ | set .. => clock.now

/-- The exact expire time, in milliseconds. -/
def due (clock : Clock) (n : Int) (c : ExpireCmd) : Int := n * c.unit.ms + c.base clock

/-- The commands that set the value refuse an argument that is not positive. -/
def Refuses (n : Int) : ExpireCmd → Prop
  | setex _ | psetex _ | set .. => n ≤ 0
  | _ => False

/-- The effect of `SET` with the expire time `due`. -/
def setAt (name : String) (flags : SetFlags) (e : Entry) (val : Sds) (n due : Int) : Entry × Reply :=
  if n ≤ 0 then (e, invalidExpire name)
  else if flags.abort e then (e, .null)
  else (⟨some (.str val), some due⟩, .ok)

/-- The effect of a command that computes its expire time exactly. -/
def result (e : Entry) (clock : Clock) (n : Int) (c : ExpireCmd) : Entry × Reply :=
  match c with
  | setex val => setAt "setex" ⟨false, false⟩ e val n (c.due clock n)
  | psetex val => setAt "psetex" ⟨false, false⟩ e val n (c.due clock n)
  | set flags _ val => setAt "set" flags e val n (c.due clock n)
  | _ => e.expireAt (c.due clock n) clock

end ExpireCmd

/-- A command does what it should with the time `due`, which it has to reject if it does not fit. -/
def ExactFor (e : Entry) (due : Int) (run : Except Fault (Entry × Reply)) (result : Entry × Reply) :
    Prop :=
  if IsLongLong due then run = .ok result else ∃ msg, run = .ok (e, .error msg)

theorem toMs_eq (unit : TimeUnit) (h : IsLongLong n) : toMs unit n = longLong (n * unit.ms) := by
  cases unit with
  | seconds => rfl
  | milliseconds => rw [TimeUnit.ms, Int.mul_one, longLong_eq h, toMs]

theorem longLong_error (h : ¬IsLongLong v) : longLong v = .error .intOverflow := if_neg h

theorem not_exactFor_error : ¬ExactFor e due (.error f) r := by
  unfold ExactFor
  split <;> simp

theorem expireGenericCommand_exact (h : string2ll param = some n) (e : Entry)
    (basetime : Int) (unit : TimeUnit) (clock : Clock) :
    ExactFor e (n * unit.ms + basetime) (expireGenericCommand e param basetime unit clock)
        (e.expireAt (n * unit.ms + basetime) clock) ↔
      IsLongLong (n * unit.ms) ∧ IsLongLong (n * unit.ms + basetime) := by
  simp only [expireGenericCommand, h, toMs_eq unit (isLongLong_of_string2ll h)]
  by_cases hp : IsLongLong (n * unit.ms)
  · by_cases hd : IsLongLong (n * unit.ms + basetime)
    · simp [longLong_eq, hp, hd, ExactFor]
    · simp [longLong_eq, longLong_error, hp, hd, not_exactFor_error]
  · simp [longLong_error, hp, not_exactFor_error]

theorem setGenericCommand_exact (h : string2ll param = some n) (name : String)
    (flags : SetFlags) (e : Entry) (val : Sds) (unit : TimeUnit) (clock : Clock) :
    ExactFor e (n * unit.ms + clock.now)
        (setGenericCommand name flags e val (some (param, unit)) clock)
        (ExpireCmd.setAt name flags e val n (n * unit.ms + clock.now)) ↔
      n ≤ 0 ∨ IsLongLong (n * unit.ms) ∧ IsLongLong (n * unit.ms + clock.now) := by
  simp only [setGenericCommand, h, toMs_eq unit (isLongLong_of_string2ll h), ExpireCmd.setAt]
  by_cases hn : n ≤ 0
  · simp [hn, ExactFor, invalidExpire]
  by_cases hp : IsLongLong (n * unit.ms)
  · by_cases hd : IsLongLong (n * unit.ms + clock.now)
    · cases flags.abort e <;> simp [longLong_eq, hp, hd, hn, ExactFor]
    -- with a condition that is not met, the reply is not an error
    cases flags.abort e <;> simp [longLong_eq, longLong_error, hp, hd, hn, ExactFor]
  · simp [longLong_error, hp, hn, not_exactFor_error]

/-- A command with an expire time is exact iff neither the milliseconds nor the time overflow, or it
refuses the argument as not positive. -/
theorem expire_exact_iff {param : Sds} {n : Int} (h : string2ll param = some n) (c : ExpireCmd)
    (e : Entry) (clock : Clock) :
    ExactFor e (c.due clock n) (c.run e param clock) (c.result e clock n) ↔
      c.Refuses n ∨ IsLongLong (n * c.unit.ms) ∧ IsLongLong (c.due clock n) := by
  have hexpire := fun basetime unit =>
    (expireGenericCommand_exact h e basetime unit clock).trans (or_iff_right id).symm
  have hset := fun name flags val unit => setGenericCommand_exact h name flags e val unit clock
  cases c with
  | expire => exact hexpire clock.start .seconds
  | expireat => exact hexpire 0 .seconds
  | pexpire => exact hexpire clock.start .milliseconds
  | pexpireat => exact hexpire 0 .milliseconds
  | setex val => exact hset "setex" ⟨false, false⟩ val .seconds
  | psetex val => exact hset "psetex" ⟨false, false⟩ val .milliseconds
  | set flags unit val => exact hset "set" flags val unit

theorem expire_exact_iff_five :
    ExactFor ⟨some .other, none⟩ 12000 (expireCommand ⟨some .other, none⟩ ['5'] ⟨7000, 7001, false⟩)
      (⟨some .other, some 12000⟩, .int 1) :=
  (@expire_exact_iff ['5'] 5 rfl .expire ⟨some .other, none⟩ ⟨7000, 7001, false⟩).mpr
    (.inr (by decide))

/-- The milliseconds of `EXPIRE` with 9223372036854776 seconds do not fit, and it is not rejected. -/
theorem expire_overflows :
    expireCommand ⟨some .other, none⟩ "9223372036854776".toList ⟨7000, 7001, false⟩ =
      .error .intOverflow := by
  decide

/-! ## Ranges -/

/-- A `size_t` that is assigned to a `long long`. -/
def asLongLong (v : Int) : Int := (v + 2 ^ 63) % 2 ^ 64 - 2 ^ 63

/-- `getrangeCommand` on a string of `strlen` bytes: the first and the last byte of the reply. -/
def getrange (strlen : Nat) (start stop : Int) : Option (Int × Int) :=
  if start < 0 ∧ stop < 0 ∧ start > stop then none
  else
    let start := if start < 0 then asLongLong (strlen + start) else start
    let stop := if stop < 0 then asLongLong (strlen + stop) else stop
    let start := if start < 0 then 0 else start
    let stop := if stop < 0 then 0 else stop
    let stop := if stop ≥ strlen then asLongLong (strlen - 1) else stop
    if start > stop ∨ strlen = 0 then none else some (start, stop)

/-- `lrangeCommand` on a list of `llen` elements. -/
def lrange (llen : Nat) (start stop : Int) : Option (Int × Int) :=
  let start := if start < 0 then llen + start else start
  let stop := if stop < 0 then llen + stop else stop
  let start := if start < 0 then 0 else start
  if start > stop ∨ start ≥ llen then none
  else some (start, if stop ≥ llen then llen - 1 else stop)

/-- The index `i` of `n` elements that an argument means. -/
def index (n : Nat) (i : Int) : Int := if i < 0 then n + i else i

/-- A reply has the elements between the indices `start` and `stop`. -/
def Selects (n : Nat) (start stop : Int) (r : Option (Int × Int)) : Prop :=
  ∀ i, (∃ q ∈ r, q.1 ≤ i ∧ i ≤ q.2) ↔ (0 ≤ i ∧ i < n) ∧ index n start ≤ i ∧ i ≤ index n stop

theorem selects_ite {n : Nat} {start stop a b : Int} {c} [Decidable c] :
    Selects n start stop (if c then none else some (a, b)) ↔ ∀ i : Int, (¬c ∧ a ≤ i ∧ i ≤ b) ↔
      (0 ≤ i ∧ i < n) ∧ index n start ≤ i ∧ i ≤ index n stop := by
  refine forall_congr' fun i => iff_congr ?_ Iff.rfl
  split <;> simp_all

theorem index_eq {n : Nat} (hn : n < 2 ^ 63) (hv : IsLongLong v) :
    (if v < 0 then asLongLong (n + v) else v) = index n v := by
  unfold IsLongLong at hv
  unfold asLongLong index
  split <;> omega

/-- `LRANGE` has the elements that its arguments mean, and so has `GETRANGE` unless the last index is
before the string, and the first is 0 or not after it: then it has the first byte. -/
theorem range_exact_iff {n : Nat} {start stop : Int} (hn : n < 2 ^ 63) (hstart : IsLongLong start)
    (hstop : IsLongLong stop) : Selects n start stop (lrange n start stop) ∧
    (Selects n start stop (getrange n start stop) ↔
      ¬(0 < n ∧ index n stop < 0 ∧ (start = 0 ∨ start ≤ stop))) := by
  have hs : index n start = if start < 0 then n + start else start := rfl
  have he : index n stop = if stop < 0 then n + stop else stop := rfl
  have hlast : asLongLong (n - 1) = n - 1 := by
    unfold asLongLong
    omega
  refine ⟨selects_ite.mpr fun i => ?_, ?_⟩
  · rw [← hs, ← he]
    omega
  rw [getrange, index_eq hn hstart, index_eq hn hstop, hlast]
  dsimp only
  rw [← ite_or, selects_ite]
  refine ⟨fun h => ?_, fun h i => ?_⟩
  · have h0 := h 0
    omega
  · omega

theorem range_exact_iff_negative :
    Selects 5 (-3) (-2) (getrange 5 (-3) (-2)) ∧ getrange 5 (-3) (-2) = some (2, 3) :=
  ⟨(range_exact_iff (by decide) (by decide) (by decide)).2.mpr (by decide), by decide⟩

theorem getrange_first_byte : getrange 5 (-100) (-50) = some (0, 0) ∧ lrange 5 (-100) (-50) = none := by
  decide

/-! ## Offsets of bits -/

/-- The `#` form is used, in which the offset is a number of fields. -/
def usesHash (o : Sds) (hash : Bool) (bits : Int) : Bool := o.head? = some '#' && hash && bits > 0

/-- The limit of `getBitOffsetFromArgument`: 512 MB in bytes. -/
def limitOffset (loffset : Int) : Option Nat :=
  if loffset < 0 ∨ loffset.toNat >>> 3 ≥ 512 * 1024 * 1024 then none else some loffset.toNat

/-- `getBitOffsetFromArgument`; `none` is the error. -/
def getBitOffsetFromArgument (o : Sds) (hash : Bool) (bits : Int) : Except Fault (Option Nat) :=
  let usehash := usesHash o hash bits
  match string2ll (if usehash then o.tail else o) with
  | none => .ok none
  | some loffset => do
    let loffset ← if usehash then longLong (loffset * bits) else .ok loffset
    return limitOffset loffset

/-- The exact offset, if it is a number. -/
def bitOffset (o : Sds) (hash : Bool) (bits : Int) : Option Int :=
  if usesHash o hash bits then (string2ll o.tail).map (· * bits) else string2ll o

theorem limitOffset_eq (v : Int) :
    limitOffset v = if 0 ≤ v ∧ v < 2 ^ 32 then some v.toNat else none := by
  unfold limitOffset
  rw [Nat.shiftRight_eq_div_pow]
  split_ifs <;> first | rfl | omega

/-- An offset is accepted iff it is less than `2 ^ 32`, and is then exact, unless the product of the
`#` form does not fit. -/
theorem bitOffset_exact_iff (o : Sds) (hash : Bool) (bits : Int) :
    getBitOffsetFromArgument o hash bits = .ok ((bitOffset o hash bits).bind fun n =>
        if 0 ≤ n ∧ n < 2 ^ 32 then some n.toNat else none) ↔
      ∀ n ∈ bitOffset o hash bits, IsLongLong n := by
  unfold getBitOffsetFromArgument bitOffset
  obtain _ | _ := usesHash o hash bits
  · refine iff_of_true ?_ fun n hn => isLongLong_of_string2ll hn
    rcases h : string2ll o with _ | n
    · simp [h]
    simp [h, limitOffset_eq]
  rcases h : string2ll o.tail with _ | n
  · simp [h]
  by_cases hn : IsLongLong (n * bits)
  · simp [h, hn, longLong_eq hn, limitOffset_eq]
  · simp [h, hn, longLong_error hn]

/-- `BITFIELD` with fields of 4 bits and the offset `#4611686018427387904`. -/
theorem bitOffset_overflows :
    getBitOffsetFromArgument "#4611686018427387904".toList true 4 = .error .intOverflow := by
  decide

end UfsRedis.Strings
