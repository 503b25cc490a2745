import UfsRedis.Lib.Bytes
import UfsRedis.Sds

/-!
# Blocks of memory

The packed encodings of values (integer sets, ziplists, registers) are blocks of bytes that the
code reads and writes at computed offsets. A block is the list of its bytes. An access outside of
the block is a fault. What `zrealloc` adds to a block is unspecified: it is an argument of the
model, `fresh`.
-/

namespace UfsRedis

open Lib

/-- `memcpy` of `n` bytes out of a block. -/
def load (buf : List UInt8) (off n : Nat) : Except Fault (List UInt8) :=
  if off + n ≤ buf.length then .ok (slice buf off n) else .error .readPastEnd

/-- `memcpy` of bytes into a block. -/
def store (buf : List UInt8) (off : Nat) (bs : List UInt8) : Except Fault (List UInt8) :=
  if off + bs.length ≤ buf.length then .ok (overwrite buf off bs) else .error .bufferOverflow

/-- `memmove` inside of a block. -/
def memmove (buf : List UInt8) (dst src n : Nat) : Except Fault (List UInt8) := do
  store buf dst (← load buf src n)

/-- `p[i]` of a block of `uint8_t`. -/
def loadByte (buf : List UInt8) (i : Nat) : Except Fault UInt8 :=
  match buf[i]? with
  | some b => .ok b
  | none => .error .readPastEnd

/-- `p[i] = b`. -/
def storeByte (buf : List UInt8) (i : Nat) (b : UInt8) : Except Fault (List UInt8) :=
  if i < buf.length then .ok (buf.set i b) else .error .bufferOverflow

def zrealloc (fresh : Nat → UInt8) (buf : List UInt8) (size : Nat) : List UInt8 :=
  buf.take size ++ (List.range' buf.length (size - buf.length)).map fresh

variable {buf bs : List UInt8} {off n dst src size : Nat} {fresh : Nat → UInt8}

theorem load_eq (h : off + n ≤ buf.length) : load buf off n = .ok (slice buf off n) := if_pos h

theorem store_eq (h : off + bs.length ≤ buf.length) :
    store buf off bs = .ok (overwrite buf off bs) := if_pos h

theorem memmove_eq (hsrc : src + n ≤ buf.length) (hdst : dst + n ≤ buf.length) :
    memmove buf dst src n = .ok (overwrite buf dst (slice buf src n)) := by
  rw [memmove, load_eq hsrc, ok_bind, store_eq (by rwa [length_slice hsrc])]

theorem loadByte_eq (h : buf[i]? = some b) : loadByte buf i = .ok b := by
  rw [loadByte, h]

theorem storeByte_eq (h : i < buf.length) : storeByte buf i b = .ok (buf.set i b) := if_pos h

@[simp] theorem length_zrealloc : (zrealloc fresh buf size).length = size := by
  simp only [zrealloc, List.length_append, List.length_take, List.length_map, List.length_range']
  omega

theorem slice_zrealloc (hbuf : off + n ≤ buf.length) (hsize : off + n ≤ size) :
    slice (zrealloc fresh buf size) off n = slice buf off n := by
  rw [zrealloc, slice_append_left, slice_take hsize]
  rw [List.length_take]
  omega

theorem stores_zrealloc (h : Stores w buf k vs)
    (hbuf : (k + vs.length) * w ≤ buf.length) (hsize : (k + vs.length) * w ≤ size) :
    Stores w (zrealloc fresh buf size) k vs := by
  refine h.congr fun i hi => ?_
  have : (k + i) * w + w ≤ (k + vs.length) * w := slot_le (by omega)
  exact slice_zrealloc (by omega) (by omega)

end UfsRedis
