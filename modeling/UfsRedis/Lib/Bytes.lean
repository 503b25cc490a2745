import Mathlib.Algebra.Group.Nat.Defs
import Mathlib.Data.Int.Order.Basic
import Mathlib.Data.List.Basic

/-!
# Buffers and the numbers in them

* `slice` and `overwrite`: reading and writing a range of a buffer. What a slice of an overwritten
  buffer holds depends only on how the two ranges lie (`slice_overwrite_of_le`,
  `slice_overwrite_of_ge`, `slice_overwrite_inside`).
* `leBytes` and `leNat`: a number as bytes, the least significant first.
* `leInt`: the same bytes as a signed number, in two's complement.
* `Stores w buf k vs`: the slots of `w` bytes from the `k`-th on hold the numbers `vs`.
-/

namespace Lib

open List

section

variable {α : Type*} {buf bs : List α} {a i k n off : Nat}

/-- The `n` cells from `off` on. -/
def slice (buf : List α) (off n : Nat) : List α := (buf.drop off).take n

/-- The buffer with `bs` written at `off`. -/
def overwrite (buf : List α) (off : Nat) (bs : List α) : List α :=
  buf.take off ++ (bs ++ buf.drop (off + bs.length))

theorem getElem?_slice : (slice buf off n)[i]? = if i < n then buf[off + i]? else none := by
  simp only [slice, getElem?_take, getElem?_drop]

theorem getElem?_overwrite (h : off + bs.length ≤ buf.length) : (overwrite buf off bs)[i]? =
      if i < off then buf[i]? else if i < off + bs.length then bs[i - off]? else buf[i]? := by
  have hlen : (buf.take off).length = off := by
    rw [length_take, Nat.min_eq_left (by omega)]
  unfold overwrite
  split_ifs with h1 h2
  · rw [getElem?_append_left (by omega), getElem?_take_of_lt h1]
  · rw [getElem?_append_right (by omega), getElem?_append_left (by omega), hlen]
  rw [getElem?_append_right (by omega), getElem?_append_right (by omega), hlen, getElem?_drop]
  congr 1
  omega

theorem slice_congr (h : ∀ i < n, buf[off + i]? = buf'[off' + i]?) :
    slice buf off n = slice buf' off' n := by
  refine ext_getElem? fun i => ?_
  rw [getElem?_slice, getElem?_slice]
  split_ifs with hi
  · exact h i hi
  · rfl

@[simp] theorem length_slice (h : off + n ≤ buf.length) : (slice buf off n).length = n := by
  rw [slice, length_take, length_drop]
  omega

section

variable (h : off + bs.length ≤ buf.length)
include h

@[simp] theorem length_overwrite : (overwrite buf off bs).length = buf.length := by
  simp only [overwrite, length_append, length_take, length_drop]
  omega

theorem slice_overwrite_of_le (hle : a + n ≤ off) :
    slice (overwrite buf off bs) a n = slice buf a n := by
  refine slice_congr fun i hi => ?_
  rw [getElem?_overwrite h, if_pos (by omega)]

theorem slice_overwrite_of_ge (hge : off + bs.length ≤ a) :
    slice (overwrite buf off bs) a n = slice buf a n := by
  refine slice_congr fun i hi => ?_
  rw [getElem?_overwrite h, if_neg (by omega), if_neg (by omega)]

theorem slice_overwrite_inside (hin : k + n ≤ bs.length) :
    slice (overwrite buf off bs) (off + k) n = slice bs k n := by
  refine slice_congr fun i hi => ?_
  rw [getElem?_overwrite h, if_neg (by omega), if_pos (by omega), add_assoc, Nat.add_sub_cancel_left]

end

theorem slice_self : slice bs 0 bs.length = bs := by
  simp [slice]

theorem slice_overwrite_self (h : off + bs.length ≤ buf.length) :
    slice (overwrite buf off bs) off bs.length = bs := by
  have := slice_overwrite_inside (k := 0) (n := bs.length) h (by omega)
  rwa [add_zero, slice_self] at this

theorem slice_slice (hin : k + n ≤ a) : slice (slice buf off a) k n = slice buf (off + k) n := by
  refine slice_congr fun i hi => ?_
  rw [getElem?_slice, if_pos (by omega), add_assoc]

theorem slice_append_left (h : off + n ≤ buf.length) : slice (buf ++ bs) off n = slice buf off n := by
  exact slice_congr fun i hi => getElem?_append_left (by omega)

theorem slice_take (h : off + n ≤ k) : slice (buf.take k) off n = slice buf off n := by
  exact slice_congr fun i hi => getElem?_take_of_lt (by omega)

theorem slice_append (xs ys : List α) : slice (xs ++ ys) xs.length n = ys.take n := by
  rw [slice, drop_left]

theorem overwrite_append (xs ys bs : List α) :
    overwrite (xs ++ ys) xs.length bs = xs ++ (bs ++ ys.drop bs.length) := by
  rw [overwrite, take_left, ← drop_drop, drop_left]

theorem overwrite_overwrite (bs cs : List α) (h : off + bs.length ≤ buf.length) :
    overwrite (overwrite buf (off + bs.length) cs) off bs = overwrite buf off (bs ++ cs) := by
  have hlen : (buf.take (off + bs.length)).length = off + bs.length := length_take_of_le h
  rw [overwrite, overwrite, take_append_of_le_length (by omega), take_take,
    Nat.min_eq_left (by omega), drop_left' hlen, overwrite, append_assoc, length_append, add_assoc]

end

section

variable {w n : Nat} {bs : List UInt8} {v : Int}

/-- The `w` lowest bytes of a number, the least significant first. -/
def leBytes : Nat → Nat → List UInt8
  | 0, _ => []
  | w + 1, n => UInt8.ofNat n :: leBytes w (n / 256)

def leNat : List UInt8 → Nat
  | [] => 0
  | b :: bs => b.toNat + 256 * leNat bs

@[simp] theorem length_leBytes : (leBytes w n).length = w := by
  induction w generalizing n with
  | zero => rfl
  | succ w ih => rw [leBytes, length_cons, ih]

theorem leNat_leBytes : leNat (leBytes w n) = n % 256 ^ w := by
  induction w generalizing n with
  | zero => rw [leBytes, leNat, pow_zero, Nat.mod_one]
  | succ w ih =>
    have hbyte : (UInt8.ofNat n).toNat = n % 256 := UInt8.toNat_ofNat'
    rw [leBytes, leNat, hbyte, ih, Nat.pow_succ', Nat.mod_mul]

def leBytesInt (w : Nat) (v : Int) : List UInt8 := leBytes w (v % ((256 ^ w : Nat) : Int)).toNat

def leInt (bs : List UInt8) : Int := Int.bmod (leNat bs) (256 ^ bs.length)

@[simp] theorem length_leBytesInt : (leBytesInt w v).length = w := length_leBytes

theorem leInt_leBytesInt (hlo : -(((256 ^ w / 2 : Nat) : Int)) ≤ v)
    (hhi : v < ((256 ^ w / 2 : Nat) : Int)) : leInt (leBytesInt w v) = v := by
  have hnonneg : 0 ≤ v % ((256 ^ w : Nat) : Int) := Int.emod_nonneg _ (by omega)
  rw [leInt, length_leBytesInt, leBytesInt, leNat_leBytes, Int.natCast_emod,
    Int.toNat_of_nonneg hnonneg, Int.emod_emod_of_dvd _ (Int.dvd_refl _), Int.emod_bmod]
  refine Int.bmod_eq_of_le ?_ ?_ <;> omega

end

variable {w k : Nat} {buf bs : List UInt8} {v : Int} {vs xs ys : List Int}

/-- From the `k`-th slot of `w` bytes on, the buffer holds `vs`. -/
def Stores (w : Nat) (buf : List UInt8) (k : Nat) (vs : List Int) : Prop :=
  ∀ i v, vs[i]? = some v → leInt (slice buf ((k + i) * w) w) = v

theorem slot_le (h : i < j) : i * w + w ≤ j * w := by
  have := Nat.mul_le_mul_right w (Nat.succ_le_of_lt h)
  rwa [Nat.succ_mul] at this

theorem Stores.nil : Stores w buf k [] := by
  intro i v h
  simp at h

theorem stores_append :
    Stores w buf k (xs ++ ys) ↔ Stores w buf k xs ∧ Stores w buf (k + xs.length) ys := by
  constructor
  · refine fun h => ⟨fun i v hi => h i v ?_, fun i v hi => ?_⟩
    · rwa [getElem?_append_left (List.getElem?_eq_some_iff.mp hi).1]
    have := h (xs.length + i) v (by rwa [getElem?_append_right (by omega), Nat.add_sub_cancel_left])
    rwa [← add_assoc] at this
  rintro ⟨hx, hy⟩ i v hi
  by_cases hlt : i < xs.length
  · exact hx i v (by rwa [getElem?_append_left hlt] at hi)
  rw [getElem?_append_right (by omega)] at hi
  have := hy _ v hi
  rwa [show k + xs.length + (i - xs.length) = k + i by omega] at this

theorem stores_singleton : Stores w buf k [v] ↔ leInt (slice buf (k * w) w) = v := by
  refine ⟨fun h => h 0 v rfl, fun h i u hi => ?_⟩
  obtain ⟨hlt, rfl⟩ := List.getElem?_eq_some_iff.mp hi
  obtain rfl : i = 0 := by simpa using hlt
  simpa using h

theorem stores_cons : Stores w buf k (v :: vs) ↔
    leInt (slice buf (k * w) w) = v ∧ Stores w buf (k + 1) vs := by
  rw [← singleton_append, stores_append, stores_singleton, length_singleton]

section

variable (h : Stores w buf k vs)
include h

theorem Stores.congr
    (heq : ∀ i < vs.length, slice buf' ((k + i) * w) w = slice buf ((k + i) * w) w) :
    Stores w buf' k vs := by
  intro i v hi
  rw [heq i (List.getElem?_eq_some_iff.mp hi).1]
  exact h i v hi

theorem Stores.overwrite_of_le
    (hoff : off + bs.length ≤ buf.length) (hle : (k + vs.length) * w ≤ off) :
    Stores w (overwrite buf off bs) k vs := by
  refine h.congr fun i hi => slice_overwrite_of_le hoff ?_
  have : (k + i) * w + w ≤ (k + vs.length) * w := slot_le (by omega)
  omega

theorem Stores.overwrite_of_ge
    (hoff : off + bs.length ≤ buf.length) (hge : off + bs.length ≤ k * w) :
    Stores w (overwrite buf off bs) k vs := by
  refine h.congr fun i _ => slice_overwrite_of_ge hoff ?_
  have : k * w ≤ (k + i) * w := Nat.mul_le_mul_right w (by omega)
  omega

/-- Slots that are moved to the `j`-th one, also when the two ranges overlap. -/
theorem Stores.move (hsrc : k * w + n ≤ buf.length)
    (hdst : j * w + n ≤ buf.length) (hn : vs.length * w ≤ n) :
    Stores w (overwrite buf (j * w) (slice buf (k * w) n)) j vs := by
  intro i v hi
  have hlt : i * w + w ≤ vs.length * w := slot_le (List.getElem?_eq_some_iff.mp hi).1
  have hlen : (slice buf (k * w) n).length = n := length_slice hsrc
  rw [Nat.add_mul, slice_overwrite_inside (by omega) (by omega), slice_slice (by omega),
    ← Nat.add_mul]
  exact h i v hi

end

theorem stores_overwrite_leBytesInt (hlo : -(((256 ^ w / 2 : Nat) : Int)) ≤ v)
    (hhi : v < ((256 ^ w / 2 : Nat) : Int)) (hoff : k * w + w ≤ buf.length) :
    Stores w (overwrite buf (k * w) (leBytesInt w v)) k [v] := by
  have hlen : (leBytesInt w v).length = w := length_leBytesInt
  have hread : slice (overwrite buf (k * w) (leBytesInt w v)) (k * w) (leBytesInt w v).length =
      leBytesInt w v := slice_overwrite_self (by omega)
  rw [hlen] at hread
  rw [stores_singleton, hread, leInt_leBytesInt hlo hhi]

end Lib
