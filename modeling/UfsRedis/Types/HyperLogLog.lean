import UfsRedis.Types.Memory
import Mathlib.Algebra.Order.Ring.Unbundled.Rat

/-!
# HyperLogLog

`src/hyperloglog.c`: 16384 registers of 6 bits. The dense encoding packs them one after the other
across the borders of the bytes. The sparse encoding is a sequence of opcodes for runs of equal
registers:

* `00xxxxxx`, `ZERO`: up to 64 zero registers;
* `01xxxxxx xxxxxxxx`, `XZERO`: up to 16384 zero registers;
* `1vvvvvxx`, `VAL`: up to 4 registers with one value from 1 to 32.

The bytes after the header are an sds, so that there is a NUL after the last one, and the dense
macros read and write it. `double` is modelled by rational numbers: the sums are exact.
-/

namespace UfsRedis.Hll

open Lib

/-- `HLL_REGISTERS`. -/
def numRegisters : Nat := 16384

def hllBits : Nat := 6

/-- `HLL_REGISTER_MAX`. -/
def registerMax : Nat := 63

/-- `HLL_HDR_SIZE`. -/
def hdrSize : Nat := 16

/-- `HLL_DENSE_SIZE` without the header. -/
def denseSize : Nat := (numRegisters * hllBits + 7) / 8

/-- `HLL_DENSE`. -/
def encDense : Nat := 0

/-- `HLL_SPARSE`. -/
def encSparse : Nat := 1

/-- `struct hllhdr`, with the bytes of the sds that follow the header. -/
structure Hllhdr where
  magic : List UInt8
  encoding : Nat
  notused : List UInt8
  card : List UInt8
  registers : List UInt8
  deriving DecidableEq, Repr

def withNul (s : List UInt8) : List UInt8 := s ++ [0]

/-- `HLL_INVALIDATE_CACHE`. -/
def invalidateCache (card : List UInt8) : List UInt8 := card.modify 7 (· ||| 128)

/-! ## The dense encoding -/

/-- `HLL_DENSE_GET_REGISTER`. -/
def denseGetRegister (p : List UInt8) (regnum : Nat) : Except Fault Nat := do
  let byte := regnum * hllBits / 8
  let fb := regnum * hllBits &&& 7
  let fb8 := 8 - fb
  let b0 ← loadByte p byte
  let b1 ← loadByte p (byte + 1)
  .ok ((b0.toNat >>> fb ||| b1.toNat <<< fb8) &&& registerMax)

/-- `HLL_DENSE_SET_REGISTER`. -/
def denseSetRegister (p : List UInt8) (regnum v : Nat) : Except Fault (List UInt8) := do
  let byte := regnum * hllBits / 8
  let fb := regnum * hllBits &&& 7
  let fb8 := 8 - fb
  let b ← loadByte p byte
  let p ← storeByte p byte (b &&& ~~~ UInt8.ofNat (registerMax <<< fb))
  let b ← loadByte p byte
  let p ← storeByte p byte (b ||| UInt8.ofNat (v <<< fb))
  let b ← loadByte p (byte + 1)
  let p ← storeByte p (byte + 1) (b &&& ~~~ UInt8.ofNat (registerMax >>> fb8))
  let b ← loadByte p (byte + 1)
  storeByte p (byte + 1) (b ||| UInt8.ofNat (v >>> fb8))

/-- `hllDenseSet`: the registers, and whether the function returns 1. -/
def hllDenseSet (registers : List UInt8) (index count : Nat) : Except Fault (List UInt8 × Bool) := do
  let oldcount ← denseGetRegister registers index
  if count > oldcount then
    let registers ← denseSetRegister registers index count
    .ok (registers, true)
  else .ok (registers, false)

/-- What the table `PE` of `hllCount` holds. -/
def pe (reg : Nat) : Rat := if reg = 0 then 1 else 1 / ((2 ^ reg : Nat) : Rat)

/-- The 16 registers `r0` to `r15` of one round of `hllDenseSum`, from the bytes `r[0]` to
`r[11]`. -/
def denseRound (r : Nat → Nat) : List Nat :=
  [r 0 &&& 63, (r 0 >>> 6 ||| r 1 <<< 2) &&& 63, (r 1 >>> 4 ||| r 2 <<< 4) &&& 63,
    (r 2 >>> 2) &&& 63, r 3 &&& 63, (r 3 >>> 6 ||| r 4 <<< 2) &&& 63,
    (r 4 >>> 4 ||| r 5 <<< 4) &&& 63, (r 5 >>> 2) &&& 63, r 6 &&& 63,
    (r 6 >>> 6 ||| r 7 <<< 2) &&& 63, (r 7 >>> 4 ||| r 8 <<< 4) &&& 63, (r 8 >>> 2) &&& 63,
    r 9 &&& 63, (r 9 >>> 6 ||| r 10 <<< 2) &&& 63, (r 10 >>> 4 ||| r 11 <<< 4) &&& 63,
    (r 11 >>> 2) &&& 63]

/-- The sum of `PE[r0]` to `PE[r15]`, with the parentheses of the source. -/
def roundSum (rs : List Nat) : Rat :=
  let p i := pe (rs.getD i 0)
  (p 0 + p 1) + (p 2 + p 3) + (p 4 + p 5) + (p 6 + p 7) + (p 8 + p 9) + (p 10 + p 11) +
    (p 12 + p 13) + (p 14 + p 15)

/-- The loop of `hllDenseSum`, with `r` as an offset. -/
def denseSumLoop (registers : List UInt8) : Nat → Nat → Rat → Nat → Except Fault (Rat × Nat)
  | 0, _, e, ez => .ok (e, ez)
  | rounds + 1, r, e, ez => do
    let bytes ← load registers r 12
    let rs := denseRound fun i => (bytes.getD i 0).toNat
    denseSumLoop registers rounds (r + 12) (e + roundSum rs) (ez + rs.count 0)

/-- `hllDenseSum`: the sum, and `*ezp`. -/
def hllDenseSum (registers : List UInt8) : Except Fault (Rat × Nat) :=
  denseSumLoop registers 1024 0 0 0

/-! ## The sparse encoding -/

/-- `HLL_SPARSE_IS_ZERO`. -/
def isZero (b : UInt8) : Bool := b.toNat &&& 0xc0 = 0

/-- `HLL_SPARSE_IS_XZERO`. -/
def isXzero (b : UInt8) : Bool := b.toNat &&& 0xc0 = 0x40

/-- `HLL_SPARSE_IS_VAL`. -/
def isVal (b : UInt8) : Bool := b.toNat &&& 0x80 ≠ 0

/-- `HLL_SPARSE_ZERO_LEN`. -/
def zeroLen (b : UInt8) : Nat := (b.toNat &&& 0x3f) + 1

/-- `HLL_SPARSE_XZERO_LEN`. -/
def xzeroLen (b0 b1 : UInt8) : Nat := ((b0.toNat &&& 0x3f) <<< 8 ||| b1.toNat) + 1

/-- `HLL_SPARSE_VAL_VALUE`. -/
def valValue (b : UInt8) : Nat := (b.toNat >>> 2 &&& 0x1f) + 1

/-- `HLL_SPARSE_VAL_LEN`. -/
def valLen (b : UInt8) : Nat := (b.toNat &&& 0x3) + 1

/-- `HLL_SPARSE_VAL_MAX_VALUE`. -/
def valMaxValue : Nat := 32

/-- `HLL_SPARSE_VAL_MAX_LEN`. -/
def valMaxLen : Nat := 4

/-- `HLL_SPARSE_ZERO_MAX_LEN`. -/
def zeroMaxLen : Nat := 64

/-- `HLL_SPARSE_VAL_SET`: the byte. -/
def valSet (val len : Nat) : UInt8 := UInt8.ofNat ((val - 1) <<< 2 ||| (len - 1) ||| 0x80)

/-- `HLL_SPARSE_ZERO_SET`: the byte. -/
def zeroSet (len : Nat) : UInt8 := UInt8.ofNat (len - 1)

/-- `HLL_SPARSE_XZERO_SET`: the bytes. -/
def xzeroSet (len : Nat) : List UInt8 :=
  [UInt8.ofNat ((len - 1) >>> 8 ||| 0x40), UInt8.ofNat ((len - 1) &&& 0xff)]

/-- The loop over the opcodes in `hllSparseToDense`, `hllSparseSum` and `hllMerge`: what they do
for a run of zero registers, and for a run of registers with a value. -/
def sparseLoop {σ : Type} (onZero : Nat → σ → σ) (onVal : Nat → Nat → σ → Except Fault σ)
    (buf : List UInt8) (endp : Nat) : Nat → Nat → σ → Except Fault σ
  | 0, p, s => if p < endp then .error .noFuel else .ok s
  | fuel + 1, p, s =>
    if p < endp then do
      let b ← loadByte buf p
      if isZero b then sparseLoop onZero onVal buf endp fuel (p + 1) (onZero (zeroLen b) s)
      else if isXzero b then do
        let b1 ← loadByte buf (p + 1)
        sparseLoop onZero onVal buf endp fuel (p + 2) (onZero (xzeroLen b b1) s)
      else do
        let s ← onVal (valValue b) (valLen b) s
        sparseLoop onZero onVal buf endp fuel (p + 1) s
    else .ok s

/-- The inner loop of `hllSparseToDense`: `runlen` registers from `idx` on. -/
def setRun (regval : Nat) : Nat → Nat × List UInt8 → Except Fault (Nat × List UInt8)
  | 0, s => .ok s
  | runlen + 1, (idx, dense) => do
    let dense ← denseSetRegister dense idx regval
    setRun regval runlen (idx + 1, dense)

/-- `hllSparseToDense`: the object, and whether the function returns `C_OK`. -/
def hllSparseToDense (o : Hllhdr) : Except Fault (Hllhdr × Bool) :=
  if o.encoding = encDense then .ok (o, true)
  else do
    let dense := withNul (List.replicate denseSize 0)
    let (idx, dense) ← sparseLoop (fun runlen s => (s.1 + runlen, s.2))
      (fun regval runlen s => setRun regval runlen s) (withNul o.registers) o.registers.length
      o.registers.length 0 (0, dense)
    if idx ≠ numRegisters then .ok (o, false)
    else .ok ({ o with encoding := encDense, registers := dense.take denseSize }, true)

/-- `hllSparseSum`: the sum, `*ezp`, and `*invalid`. -/
def hllSparseSum (sparse : List UInt8) : Except Fault (Rat × Nat × Bool) := do
  let (e, ez, idx) ← sparseLoop
    (fun runlen s => (s.1, s.2.1 + runlen, s.2.2 + runlen))
    (fun regval runlen s => .ok (s.1 + pe regval * runlen, s.2.1, s.2.2 + runlen))
    (withNul sparse) sparse.length sparse.length 0 ((0 : Rat), 0, 0)
  .ok (e + ez, ez, idx ≠ numRegisters)

/-- The loop of `hllSparseSet` that finds the opcode of a register: `p`, `prev`, `first` and
`span` after it. -/
def locate (buf : List UInt8) (endp index : Nat) :
    Nat → Nat → Option Nat → Nat → Nat → Except Fault (Nat × Option Nat × Nat × Nat)
  | 0, p, prev, first, span => if p < endp then .error .noFuel else .ok (p, prev, first, span)
  | fuel + 1, p, prev, first, span =>
    if p < endp then do
      let b ← loadByte buf p
      let (span, oplen) ←
        (if isZero b then .ok (zeroLen b, 1)
        else if isVal b then .ok (valLen b, 1)
        else do
          let b1 ← loadByte buf (p + 1)
          .ok (xzeroLen b b1, 2) : Except Fault (Nat × Nat))
      if index + 1 ≤ first + span then .ok (p, prev, first, span)
      else locate buf endp index fuel (p + oplen) (some p) (first + span) span
    else .ok (p, prev, first, span)

def zeroSeq (len : Nat) : List UInt8 := if len > zeroMaxLen then xzeroSet len else [zeroSet len]

/-- The new sequence for an opcode that covers the registers from `first` to `last`: `run` gives
the opcode of the registers that do not change. -/
def splitSeq (run : Nat → List UInt8) (first last index count : Nat) : List UInt8 :=
  (if index ≠ first then run (index - first) else []) ++ [valSet count 1] ++
    (if index ≠ last then run (last - index) else [])

/-- Step 4 of `hllSparseSet`: merge adjacent values, in the next `scanlen` opcodes. The state is
the buffer of the sds and the length of the data in it. -/
def mergeLoop : Nat → Nat → List UInt8 × Nat → Except Fault (List UInt8 × Nat)
  | 0, _, s => .ok s
  | scanlen + 1, p, (buf, endp) =>
    if p < endp then do
      let b ← loadByte buf p
      if isXzero b then mergeLoop scanlen (p + 2) (buf, endp)
      else if isZero b then mergeLoop scanlen (p + 1) (buf, endp)
      else if p + 1 < endp then do
        let b1 ← loadByte buf (p + 1)
        if isVal b1 ∧ valValue b = valValue b1 ∧ valLen b + valLen b1 ≤ valMaxLen then do
          let buf ← storeByte buf (p + 1) (valSet (valValue b) (valLen b + valLen b1))
          let buf ← memmove buf p (p + 1) (endp - p)
          let buf ← storeByte buf (endp - 1) 0
          mergeLoop scanlen p (buf, endp - 1)
        else mergeLoop scanlen (p + 1) (buf, endp)
      else mergeLoop scanlen (p + 1) (buf, endp)
    else .ok (buf, endp)

/-- Steps 3 and 4 and the end of `hllSparseSet`, from the label `updated` on. -/
def updated (o : Hllhdr) (prev : Option Nat) (buf : List UInt8) (endp : Nat) :
    Except Fault (Hllhdr × Int) := do
  let (buf, endp) ← mergeLoop 5 (prev.getD 0) (buf, endp)
  .ok ({ o with card := invalidateCache o.card, registers := buf.take endp }, 1)

/-- The end of `hllSparseSet`, from the label `promote` on. -/
def promote (o : Hllhdr) (index count : Nat) : Except Fault (Hllhdr × Int) := do
  let (o, ok) ← hllSparseToDense o
  if !ok then .ok (o, -1)
  else
    let (registers, changed) ← hllDenseSet (withNul o.registers) index count
    if !changed then .error .assertFailed
    else .ok ({ o with registers := registers.take denseSize }, 1)

/-- Step 3 of `hllSparseSet`: put the new sequence in the place of an opcode of `oldlen` bytes at
`p`, and move what follows. -/
def substitute (buf : List UInt8) (endp p oldlen : Nat) (seq : List UInt8) :
    Except Fault (List UInt8 × Nat) := do
  let next := p + oldlen
  let buf ← (if seq.length ≠ oldlen ∧ next < endp then
      memmove buf (p + seq.length) next (endp - next) else .ok buf)
  let endp := endp + seq.length - oldlen
  let buf ← storeByte buf endp 0
  let buf ← store buf p seq
  .ok (buf, endp)

/-- Steps 2 to 4 of `hllSparseSet`, for the opcode at `p` with the first byte `b` that covers
`runlen` registers from `first` on. -/
def updateOp (sparseMaxBytes : Nat) (o : Hllhdr) (index count : Nat) (buf : List UInt8)
    (endp p : Nat) (prev : Option Nat) (first span : Nat) (b : UInt8) (runlen : Nat) :
    Except Fault (Hllhdr × Int) :=
  if !isZero b ∧ !isXzero b ∧ valValue b ≥ count then .ok (o, 0)
  else if !isXzero b ∧ runlen = 1 then do
    let buf ← storeByte buf p (valSet count 1)
    updated o prev buf endp
  else
    let last := first + span - 1
    let seq :=
      if isZero b ∨ isXzero b then splitSeq zeroSeq first last index count
      else splitSeq (fun len => [valSet (valValue b) len]) first last index count
    let oldlen := if isXzero b then 2 else 1
    if seq.length > oldlen ∧ hdrSize + endp + seq.length - oldlen > sparseMaxBytes then
      promote o index count
    else do
      let (buf, endp) ← substitute buf endp p oldlen seq
      updated o prev buf endp

/-- `hllSparseSet`, with the setting `hll_sparse_max_bytes`. After `sdsMakeRoomFor` the buffer of
the sds ends with `room`, at least 3 bytes. -/
def hllSparseSet (sparseMaxBytes : Nat) (room : List UInt8) (o : Hllhdr) (index count : Nat) :
    Except Fault (Hllhdr × Int) :=
  if count > valMaxValue then promote o index count
  else do
    let buf := withNul o.registers ++ room
    let endp := o.registers.length
    let (p, prev, first, span) ← locate buf endp index endp 0 none 0 0
    if span = 0 then .ok (o, -1)
    else
      let b ← loadByte buf p
      let runlen ←
        (if isZero b then .ok (zeroLen b)
        else if isXzero b then do
          let b1 ← loadByte buf (p + 1)
          .ok (xzeroLen b b1)
        else .ok (valLen b) : Except Fault Nat)
      updateOp sparseMaxBytes o index count buf endp p prev first span b runlen

/-! ## Sums and merges -/

/-- One of the lines of `hllRawSum` for the 8 bytes of a word. The table `PE` has 64 entries. -/
def rawAdd (s : Rat × Nat) (b : UInt8) : Except Fault (Rat × Nat) :=
  if b ≠ 0 then if b.toNat < 64 then .ok (s.1 + pe b.toNat, s.2) else .error .indexBounds
  else .ok (s.1, s.2 + 1)

/-- The loop of `hllRawSum` over words of 8 registers. -/
def rawSumLoop (registers : List UInt8) : Nat → Nat → Rat → Nat → Except Fault (Rat × Nat)
  | 0, _, e, ez => .ok (e, ez)
  | words + 1, p, e, ez => do
    let bytes ← load registers p 8
    if leNat bytes = 0 then rawSumLoop registers words (p + 8) e (ez + 8)
    else
      let (e, ez) ← bytes.foldlM rawAdd (e, ez)
      rawSumLoop registers words (p + 8) e ez

/-- `hllRawSum`: the sum, and `*ezp`. -/
def hllRawSum (registers : List UInt8) : Except Fault (Rat × Nat) := do
  let (e, ez) ← rawSumLoop registers (numRegisters / 8) 0 0 0
  .ok (e + ez, ez)

/-- `if (val > max[i]) max[i] = val`. -/
def raise (max : List UInt8) (i val : Nat) : Except Fault (List UInt8) := do
  let b ← loadByte max i
  if val > b.toNat then storeByte max i (UInt8.ofNat val) else .ok max

/-- The loop of `hllMerge` over the registers of a dense HLL. -/
def mergeDense (registers : List UInt8) : Nat → Nat → List UInt8 → Except Fault (List UInt8)
  | 0, _, max => .ok max
  | n + 1, i, max => do
    let val ← denseGetRegister registers i
    let max ← raise max i val
    mergeDense registers n (i + 1) max

/-- The inner loop of `hllMerge` over a run of a sparse HLL. -/
def raiseRun (regval : Nat) : Nat → Nat × List UInt8 → Except Fault (Nat × List UInt8)
  | 0, s => .ok s
  | runlen + 1, (i, max) => do
    let max ← raise max i regval
    raiseRun regval runlen (i + 1, max)

/-- `hllMerge`: `max`, and whether the function returns `C_OK`. -/
def hllMerge (max : List UInt8) (o : Hllhdr) : Except Fault (List UInt8 × Bool) :=
  if o.encoding = encDense then do
    let max ← mergeDense (withNul o.registers) numRegisters 0 max
    .ok (max, true)
  else do
    let (i, max) ← sparseLoop (fun runlen s => (s.1 + runlen, s.2))
      (fun regval runlen s => raiseRun regval runlen s) (withNul o.registers) o.registers.length
      o.registers.length 0 (0, max)
    .ok (max, decide (i = numRegisters))

end UfsRedis.Hll
