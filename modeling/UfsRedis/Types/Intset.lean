import Mathlib.Data.Finset.Card
import UfsRedis.Types.Memory

/-!
# Integer sets

`src/intset.c`: a set of integers is a sorted array whose elements are all stored with 2, 4 or 8
bytes. An integer that does not fit the current width makes the array wider; nothing makes it
narrower again.

* `Intset.Holds is vs`: the array decodes to the strictly increasing list `vs`;
* `Intset.Holds.search`: the binary search finds a value or the place to insert it;
* `Intset.Holds.upgrade`: the upgrade rewrites all elements in place, from the back;
* `Intset.Holds.add`, `Intset.Holds.remove`: one call;
* `intset_refines`: every sequence of calls is the same sequence on a finite set.
-/

namespace UfsRedis

open List Lib

/-- `intset`: the fields of the header, and the array as bytes. -/
structure Intset where
  encoding : Nat
  length : Nat
  contents : List UInt8
  deriving DecidableEq, Repr

namespace Intset

/-! ## The functions -/

/-- `INTSET_ENC_INT16`. -/
def encInt16 : Nat := 2

/-- `INTSET_ENC_INT32`. -/
def encInt32 : Nat := 4

/-- `INTSET_ENC_INT64`. -/
def encInt64 : Nat := 8

/-- `_intsetValueEncoding`. -/
def valueEncoding (v : Int) : Nat :=
  if v < -2147483648 ∨ v > 2147483647 then encInt64
  else if v < -32768 ∨ v > 32767 then encInt32
  else encInt16

/-- The pointer type that an encoding selects, by its size. -/
def width (enc : Nat) : Nat :=
  if enc = encInt64 then 8 else if enc = encInt32 then 4 else 2

/-- A position as the `int` that `_intsetGet` and `_intsetSet` take. -/
def index (pos : Int) : Except Fault Nat :=
  if 0 ≤ pos ∧ pos ≤ 2147483647 then .ok pos.toNat else .error .intOverflow

/-- `_intsetGetEncoded`. -/
def getEncoded (is : Intset) (pos : Int) (enc : Nat) : Except Fault Int := do
  let i ← index pos
  let bytes ← load is.contents (i * width enc) (width enc)
  .ok (leInt bytes)

/-- `_intsetGet`. -/
def get (is : Intset) (pos : Int) : Except Fault Int := getEncoded is pos is.encoding

/-- `_intsetSet`. The value is cut to the width of the encoding. -/
def set (is : Intset) (pos : Int) (value : Int) : Except Fault Intset := do
  let i ← index pos
  let contents ← store is.contents (i * width is.encoding) (leBytesInt (width is.encoding) value)
  .ok { is with contents }

def intsetNew : Intset := { encoding := encInt16, length := 0, contents := [] }

/-- `intsetResize`. The size is a `uint32_t`. -/
def resize (fresh : Nat → UInt8) (is : Intset) (len : Nat) : Intset :=
  { is with contents := zrealloc fresh is.contents (len * is.encoding % 2 ^ 32) }

/-- The loop of `intsetSearch`; it gives the last `min`, `mid` and `cur`. In the loop `min` and
`max` are not negative, so that their sum as `unsigned int` does not wrap. -/
def searchLoop (is : Intset) (value : Int) :
    Nat → Int → Int → Int → Int → Except Fault (Int × Int × Int)
  | 0, _, _, _, _ => .error .noFuel
  | fuel + 1, min, max, mid, cur =>
    if max ≥ min then do
      let mid := (min + max) / 2
      let cur ← get is mid
      if value > cur then searchLoop is value fuel (mid + 1) max mid cur
      else if value < cur then searchLoop is value fuel min (mid - 1) mid cur
      else .ok (min, mid, cur)
    else .ok (min, mid, cur)

/-- `intsetSearch`: whether the value is there, and `*pos`. -/
def search (is : Intset) (value : Int) : Except Fault (Bool × Nat) :=
  if is.length = 0 then .ok (false, 0)
  else do
    if value > (← get is (is.length - 1)) then .ok (false, is.length)
    else if value < (← get is 0) then .ok (false, 0)
    else
      let (min, mid, cur) ← searchLoop is value (is.length + 1) 0 (is.length - 1) (-1) (-1)
      if value = cur then .ok (true, mid.toNat) else .ok (false, min.toNat)

/-- The loop of `intsetUpgradeAndAdd`, from the last element to the first. -/
def upgradeLoop (curenc prepend : Nat) : Nat → Intset → Except Fault Intset
  | 0, is => .ok is
  | length + 1, is => do
    let v ← getEncoded is length curenc
    let is ← set is (length + prepend : Nat) v
    upgradeLoop curenc prepend length is

/-- `intsetUpgradeAndAdd`. -/
def upgradeAndAdd (fresh : Nat → UInt8) (is : Intset) (value : Int) : Except Fault Intset := do
  let curenc := is.encoding
  let newenc := valueEncoding value
  let prepend := if value < 0 then 1 else 0
  let is := resize fresh { is with encoding := newenc } ((is.length + 1) % 2 ^ 32)
  let is ← upgradeLoop curenc prepend is.length is
  let is ← if prepend = 1 then set is 0 value else set is is.length value
  .ok { is with length := (is.length + 1) % 2 ^ 32 }

/-- `intsetMoveTail`. -/
def moveTail (is : Intset) (src dst : Nat) : Except Fault Intset := do
  let bytes := (is.length + 2 ^ 32 - src) % 2 ^ 32 * width is.encoding % 2 ^ 32
  let contents ← memmove is.contents (dst * width is.encoding) (src * width is.encoding) bytes
  .ok { is with contents }

/-- `intsetAdd`: the set, and `*success`. -/
def intsetAdd (fresh : Nat → UInt8) (is : Intset) (value : Int) : Except Fault (Intset × Bool) :=
  let valenc := valueEncoding value
  if valenc > is.encoding then do
    let is ← upgradeAndAdd fresh is value
    .ok (is, true)
  else do
    let (found, pos) ← search is value
    if found then .ok (is, false)
    else
      let is := resize fresh is ((is.length + 1) % 2 ^ 32)
      let is ← (if pos < is.length then moveTail is pos (pos + 1) else .ok is)
      let is ← set is pos value
      .ok ({ is with length := (is.length + 1) % 2 ^ 32 }, true)

/-- `intsetRemove`: the set, and `*success`. -/
def intsetRemove (fresh : Nat → UInt8) (is : Intset) (value : Int) :
    Except Fault (Intset × Bool) :=
  let valenc := valueEncoding value
  if valenc ≤ is.encoding then do
    let (found, pos) ← search is value
    if found then
      let len := is.length
      let is ← (if pos < len - 1 then moveTail is (pos + 1) pos else .ok is)
      let is := resize fresh is (len - 1)
      .ok ({ is with length := len - 1 }, true)
    else .ok (is, false)
  else .ok (is, false)

def intsetFind (is : Intset) (value : Int) : Except Fault Bool :=
  if valueEncoding value ≤ is.encoding then do
    let (found, _) ← search is value
    .ok found
  else .ok false

/-- `intsetGet`: `none` when the function returns 0. -/
def intsetGet (is : Intset) (pos : Nat) : Except Fault (Option Int) :=
  if pos < is.length then do
    let v ← get is pos
    .ok (some v)
  else .ok none

/-! ## What an array holds -/

def Fits (enc : Nat) (v : Int) : Prop :=
  -(((256 ^ enc / 2 : Nat) : Int)) ≤ v ∧ v < ((256 ^ enc / 2 : Nat) : Int)

def IsEncoding (enc : Nat) : Prop := enc = 2 ∨ enc = 4 ∨ enc = 8

/-- The array decodes to the strictly increasing list `vs`. -/
structure Holds (is : Intset) (vs : List Int) : Prop where
  length_eq : is.length = vs.length
  isEncoding : IsEncoding is.encoding
  size_eq : is.contents.length = vs.length * is.encoding
  stores : Stores is.encoding is.contents 0 vs
  sorted : vs.Pairwise (· < ·)
  fits : ∀ v ∈ vs, Fits is.encoding v

section

variable {is : Intset} {vs xs ys : List Int} {value : Int} {enc i p : Nat} {fresh : Nat → UInt8}

theorem isEncoding_valueEncoding : IsEncoding (valueEncoding value) := by
  unfold IsEncoding valueEncoding encInt64 encInt32 encInt16
  split_ifs <;> simp

theorem IsEncoding.width_eq (h : IsEncoding enc) : width enc = enc := by
  rcases h with rfl | rfl | rfl <;> rfl

theorem IsEncoding.pos_le (h : IsEncoding enc) : 0 < enc ∧ enc ≤ 8 := by
  rcases h with rfl | rfl | rfl <;> decide

theorem fits_iff (h : IsEncoding enc) (hlo : -9223372036854775808 ≤ value)
    (hhi : value ≤ 9223372036854775807) : Fits enc value ↔ valueEncoding value ≤ enc := by
  unfold Fits valueEncoding encInt64 encInt32 encInt16
  rcases h with rfl | rfl | rfl <;>
    simp only [Nat.reducePow, Nat.reduceDiv] <;> split_ifs <;> omega

theorem index_natCast (h : i < 2 ^ 31) : index (i : Int) = .ok i := by
  unfold index
  rw [if_pos (by omega), Int.toNat_natCast]

theorem getEncoded_eq (henc : IsEncoding enc) (hi : i < 2 ^ 31)
    (hbuf : i * enc + enc ≤ is.contents.length) :
    getEncoded is i enc = .ok (leInt (slice is.contents (i * enc) enc)) := by
  rw [getEncoded, index_natCast hi, ok_bind, henc.width_eq, load_eq hbuf, ok_bind]

theorem set_eq (henc : IsEncoding is.encoding) (hi : i < 2 ^ 31)
    (hbuf : i * is.encoding + is.encoding ≤ is.contents.length) : set is i value = .ok { is with
      contents := overwrite is.contents (i * is.encoding) (leBytesInt is.encoding value) } := by
  rw [set, index_natCast hi, ok_bind, henc.width_eq, store_eq (by rwa [length_leBytesInt]), ok_bind]

variable {v : Int} {contents : List UInt8} {len : Nat}

theorem Holds.get (h : Holds is vs) (hn : vs.length * 8 < 2 ^ 32)
    (hi : vs[i]? = some v) : get is i = .ok v := by
  have hlt := (List.getElem?_eq_some_iff.mp hi).1
  have hslot : i * is.encoding + is.encoding ≤ vs.length * is.encoding := slot_le hlt
  have hread := h.stores i v hi
  rw [zero_add] at hread
  rw [Intset.get, getEncoded_eq h.isEncoding (by omega) (by rw [h.size_eq]; exact hslot), hread]

/-! ## The binary search -/

/-- `p` separates the elements below a value from those above it. -/
structure IsSlot (vs : List Int) (value : Int) (p : Nat) : Prop where
  le_length : p ≤ vs.length
  below : ∀ i v, vs[i]? = some v → i < p → v < value
  above : ∀ i v, vs[i]? = some v → p ≤ i → value < v

theorem IsSlot.exists_append (h : IsSlot vs value p) : ∃ xs ys, vs = xs ++ ys ∧
    p = xs.length ∧ (∀ x ∈ xs, x < value) ∧ ∀ y ∈ ys, value < y := by
  have hle := h.le_length
  refine ⟨vs.take p, vs.drop p, (take_append_drop p vs).symm, by simp; omega, ?_, ?_⟩
  · intro x hx
    obtain ⟨i, hi⟩ := mem_iff_getElem?.mp hx
    rw [getElem?_take] at hi
    split_ifs at hi with hlt
    exact h.below i x hi hlt
  intro y hy
  obtain ⟨i, hi⟩ := mem_iff_getElem?.mp hy
  rw [getElem?_drop] at hi
  exact h.above _ y hi (by omega)

theorem IsSlot.not_mem (h : IsSlot vs value p) : value ∉ vs := by
  obtain ⟨xs, ys, rfl, -, hx, hy⟩ := h.exists_append
  intro hmem
  rcases mem_append.mp hmem with hm | hm
  · exact absurd (hx _ hm) (Int.lt_irrefl _)
  · exact absurd (hy _ hm) (Int.lt_irrefl _)

/-- What the search reports: where the value is, or where it belongs. -/
def Located (vs : List Int) (value : Int) : Bool × Nat → Prop
  | (true, p) => vs[p]? = some value
  | (false, p) => IsSlot vs value p

theorem le_of_getElem? (h : vs.Pairwise (· < ·)) (hu : vs[i]? = some u)
    (hv : vs[j]? = some v) (hij : i ≤ j) : u ≤ v := by
  obtain ⟨hi, rfl⟩ := List.getElem?_eq_some_iff.mp hu
  obtain ⟨hj, rfl⟩ := List.getElem?_eq_some_iff.mp hv
  rcases Nat.lt_or_eq_of_le hij with hlt | rfl
  · exact Int.le_of_lt (pairwise_iff_getElem.mp h i j hi hj hlt)
  · exact Int.le_refl _

/-- The loop ends: with the value, or with `min` where the value belongs. The invariant says what
has been excluded on both sides. The second part of `hcur` is the state before the first round, in
which `cur` is not an element yet. -/
theorem Holds.searchLoop (h : Holds is vs) (hn : vs.length * 8 < 2 ^ 32) {fuel : Nat}
    {min max mid cur : Int} (hfuel : max + 1 - min < fuel) (hmin : 0 ≤ min)
    (hmax : max < vs.length) (hle : min ≤ max + 1)
    (hbelow : ∀ (i : Nat) v, vs[i]? = some v → (i : Int) < min → v < value)
    (habove : ∀ (i : Nat) v, vs[i]? = some v → max < (i : Int) → value < v)
    (hcur : cur ≠ value ∨ min ≤ max) :
    ∃ min' mid' cur', searchLoop is value fuel min max mid cur = .ok (min', mid', cur') ∧
      if value = cur' then vs[mid'.toNat]? = some value else IsSlot vs value min'.toNat := by
  induction fuel generalizing min max mid cur with
  | zero => omega
  | succ fuel ih =>
    rw [Intset.searchLoop]
    by_cases hround : max ≥ min
    · obtain ⟨m, hmid⟩ : ∃ m : Nat, (min + max) / 2 = m :=
        ⟨_, (Int.toNat_of_nonneg (by omega)).symm⟩
      have hlt : m < vs.length := by omega
      have hv : vs[m]? = some vs[m] := getElem?_eq_getElem hlt
      rw [if_pos hround, hmid]
      dsimp only
      rw [h.get hn hv, ok_bind]
      split
      · rename_i hgt
        refine ih (by omega) (by omega) hmax (by omega) (fun i v hi hlo => ?_) habove
          (Or.inl (by omega))
        exact Int.lt_of_le_of_lt (le_of_getElem? h.sorted hi hv (by omega)) hgt
      split
      · rename_i hlt'
        refine ih (by omega) hmin (by omega) (by omega) hbelow (fun i v hi hhi => ?_)
          (Or.inl (by omega))
        exact Int.lt_of_lt_of_le hlt' (le_of_getElem? h.sorted hv hi (by omega))
      have heq : value = vs[m] := by omega
      refine ⟨min, m, vs[m], rfl, ?_⟩
      rw [if_pos heq, Int.toNat_natCast, hv, ← heq]
    rw [if_neg hround]
    refine ⟨min, mid, cur, rfl, ?_⟩
    have hne : value ≠ cur := by
      rcases hcur with hcur | hcur
      · exact Ne.symm hcur
      · omega
    rw [if_neg hne]
    exact ⟨by omega, fun i v hi hlo => hbelow i v hi (by omega),
      fun i v hi hhi => habove i v hi (by omega)⟩

theorem Holds.search (h : Holds is vs) (hn : vs.length * 8 < 2 ^ 32) :
    ∃ r, search is value = .ok r ∧ Located vs value r := by
  unfold Intset.search
  rw [h.length_eq]
  split
  · refine ⟨(false, 0), rfl, by omega, fun i v _ hi => by omega, fun i v hi _ => ?_⟩
    have := (List.getElem?_eq_some_iff.mp hi).1
    omega
  have hlast : vs[vs.length - 1]? = some vs[vs.length - 1] := getElem?_eq_getElem (by omega)
  have hfirst : vs[0]? = some vs[0] := getElem?_eq_getElem (by omega)
  have hget := h.get hn hlast
  rw [show ((vs.length - 1 : Nat) : Int) = (vs.length : Int) - 1 by omega] at hget
  rw [hget, ok_bind]
  split
  · rename_i hgt
    refine ⟨(false, vs.length), rfl, le_rfl, fun i v hi hlt => ?_, fun i v hi hle => ?_⟩
    · exact Int.lt_of_le_of_lt (le_of_getElem? h.sorted hi hlast (by omega)) hgt
    have := (List.getElem?_eq_some_iff.mp hi).1
    omega
  have hget0 : Intset.get is 0 = .ok vs[0] := h.get hn hfirst
  rw [hget0, ok_bind]
  split
  · rename_i hlt
    refine ⟨(false, 0), rfl, by omega, fun i v _ hi => by omega, fun i v hi _ => ?_⟩
    exact Int.lt_of_lt_of_le hlt (le_of_getElem? h.sorted hfirst hi (by omega))
  obtain ⟨min, mid, cur, heq, hres⟩ : ∃ min mid cur,
      Intset.searchLoop is value (vs.length + 1) 0 (vs.length - 1) (-1) (-1) = .ok (min, mid, cur) ∧
      if value = cur then vs[mid.toNat]? = some value else IsSlot vs value min.toNat := by
    refine h.searchLoop hn (by omega) (by omega) (by omega) (by omega) (fun i v _ hi => by omega)
      (fun i v hi hi' => ?_) (Or.inr (by omega))
    have := (List.getElem?_eq_some_iff.mp hi).1
    omega
  rw [heq, ok_bind]
  split at hres
  · rename_i hcur
    exact ⟨(true, mid.toNat), if_pos hcur, hres⟩
  rename_i hcur
  exact ⟨(false, min.toNat), if_neg hcur, hres⟩

/-! ## The upgrade -/

/-- The loop of the upgrade: below the elements that are still narrow, above them those that are
wide already, `p` slots further. -/
theorem upgradeLoop_eq (hcw : IsEncoding cw) (hle : cw ≤ is.encoding)
    (henc : IsEncoding is.encoding) (hn : (xs ++ ys).length + p < 2 ^ 31)
    (hsize : ((xs ++ ys).length + p) * is.encoding ≤ is.contents.length)
    (hxs : Stores cw is.contents 0 xs) (hfits : ∀ v ∈ xs, Fits is.encoding v)
    (hys : Stores is.encoding is.contents (xs.length + p) ys) :
    ∃ contents, upgradeLoop cw p xs.length is = .ok { is with contents } ∧
      contents.length = is.contents.length ∧ Stores is.encoding contents p (xs ++ ys) := by
  induction xs using List.reverseRecOn generalizing ys is with
  | nil =>
    refine ⟨is.contents, rfl, rfl, ?_⟩
    simpa using hys
  | append_singleton xs x ih =>
    simp only [length_append, length_singleton] at hn hsize hys ⊢
    rw [stores_append, stores_singleton, zero_add] at hxs
    have hcwle : xs.length * cw + cw ≤ is.contents.length := by
      have h1 : (xs.length + 1) * cw ≤ (xs.length + 1 + ys.length + p) * is.encoding :=
        Nat.mul_le_mul (by omega) hle
      rw [Nat.succ_mul] at h1
      omega
    have hslot : (xs.length + p) * is.encoding + is.encoding ≤ is.contents.length :=
      le_trans (slot_le (by omega)) hsize
    have hwrite : (xs.length + p) * is.encoding + (leBytesInt is.encoding x).length ≤
        is.contents.length := by rwa [length_leBytesInt]
    have hfit := hfits x (by simp)
    have hnarrow : (0 + xs.length) * cw ≤ (xs.length + p) * is.encoding :=
      Nat.mul_le_mul (by omega) hle
    have hnext : Stores is.encoding (overwrite is.contents ((xs.length + p) * is.encoding)
        (leBytesInt is.encoding x)) (xs.length + p) (x :: ys) := by
      refine stores_cons.mpr ⟨stores_singleton.mp
        (stores_overwrite_leBytesInt hfit.1 hfit.2 hslot), ?_⟩
      rw [show xs.length + p + 1 = xs.length + 1 + p by omega]
      refine hys.overwrite_of_ge hwrite ?_
      rw [length_leBytesInt]
      exact slot_le (by omega)
    have hkeep := hxs.1.overwrite_of_le hwrite hnarrow
    have hlen' := length_overwrite hwrite
    rw [upgradeLoop, getEncoded_eq hcw (by omega) hcwle, ok_bind, hxs.2,
      set_eq henc (by omega) hslot, ok_bind]
    generalize overwrite is.contents ((xs.length + p) * is.encoding)
      (leBytesInt is.encoding x) = next at hnext hkeep hlen' ⊢
    obtain ⟨contents, hrun, hlen, hall⟩ : ∃ contents,
        upgradeLoop cw p xs.length { is with contents := next } = .ok { is with contents } ∧
        contents.length = next.length ∧ Stores is.encoding contents p (xs ++ x :: ys) := by
      refine ih hle henc ?_ ?_ hkeep (fun v hv => hfits v (by simp [hv])) hnext
      · simp only [length_append, length_cons]
        omega
      simp only [length_append, length_cons]
      rw [hlen', show xs.length + (ys.length + 1) + p = xs.length + 1 + ys.length + p by omega]
      exact hsize
    exact ⟨contents, hrun, hlen.trans hlen', by simpa using hall⟩

/-- `value` belongs between `xs` and `ys`. -/
def Between (xs ys : List Int) (value : Int) : Prop :=
  (∀ x ∈ xs, x < value) ∧ ∀ y ∈ ys, value < y

theorem pairwise_insert (h : (xs ++ ys).Pairwise (· < ·)) (hb : Between xs ys value) :
    (xs ++ value :: ys).Pairwise (· < ·) := by
  rw [pairwise_append] at h ⊢
  refine ⟨h.1, pairwise_cons.mpr ⟨hb.2, h.2.1⟩, fun x hx y hy => ?_⟩
  rcases mem_cons.mp hy with rfl | hy
  · exact hb.1 x hx
  · exact h.2.2 x hx y hy

theorem fits_insert (h : ∀ v ∈ xs ++ ys, Fits enc v) (hv : Fits enc value) :
    ∀ v ∈ xs ++ value :: ys, Fits enc v := by
  intro v hmem
  rcases mem_append.mp hmem with hx | hx
  · exact h v (mem_append_left _ hx)
  rcases mem_cons.mp hx with rfl | hx
  · exact hv
  · exact h v (mem_append_right _ hx)

theorem between_of_not_fits (h : ∀ v ∈ vs, Fits enc v) (hv : ¬ Fits enc value) :
    if value < 0 then Between [] vs value else Between vs [] value := by
  unfold Fits at hv
  split_ifs with hneg
  · refine ⟨by simp, fun y hy => ?_⟩
    have := (h y hy).1
    omega
  refine ⟨fun x hx => ?_, by simp⟩
  have := (h x hx).2
  omega

theorem Fits.mono (h : Fits enc value) (hle : enc ≤ enc') : Fits enc' value := by
  have hpow : 256 ^ enc ≤ 256 ^ enc' := Nat.pow_le_pow_right (by omega) hle
  unfold Fits at h ⊢
  omega

theorem set_between (henc : IsEncoding enc) (hn : (xs ++ ys).length < 2 ^ 31)
    (hlen : contents.length = ((xs ++ ys).length + 1) * enc) (hxs : Stores enc contents 0 xs)
    (hys : Stores enc contents (xs.length + 1) ys) (hsorted : (xs ++ ys).Pairwise (· < ·))
    (hb : Between xs ys value) (hfits : ∀ v ∈ xs ++ ys, Fits enc v) (hv : Fits enc value) :
    ∃ contents', set ⟨enc, len, contents⟩ xs.length value = .ok ⟨enc, len, contents'⟩ ∧
      Holds ⟨enc, (xs ++ ys).length + 1, contents'⟩ (xs ++ value :: ys) := by
  rw [length_append] at hn hlen
  have hslot : xs.length * enc + enc ≤ contents.length := by
    rw [hlen]
    exact slot_le (by omega)
  have hwrite : xs.length * enc + (leBytesInt enc value).length ≤ contents.length := by
    rwa [length_leBytesInt]
  refine ⟨overwrite contents (xs.length * enc) (leBytesInt enc value),
    set_eq henc (by omega) hslot, by simp [add_assoc], henc, ?_, ?_, pairwise_insert hsorted hb,
    fits_insert hfits hv⟩
  · rw [length_overwrite hwrite, hlen]
    simp [add_assoc]
  refine stores_append.mpr ⟨hxs.overwrite_of_le hwrite
    (Nat.le_of_eq (by rw [zero_add])), ?_⟩
  rw [zero_add]
  refine stores_cons.mpr ⟨stores_singleton.mp (stores_overwrite_leBytesInt hv.1 hv.2 hslot), ?_⟩
  refine hys.overwrite_of_ge hwrite ?_
  rw [length_leBytesInt]
  exact slot_le (by omega)

theorem Holds.upgradeAndAdd (h : Holds is vs) (hn : (vs.length + 1) * 8 < 2 ^ 32)
    (hlo : -9223372036854775808 ≤ value) (hhi : value ≤ 9223372036854775807)
    (henc : is.encoding < valueEncoding value) : ∃ xs ys is', vs = xs ++ ys ∧ Between xs ys value ∧
      upgradeAndAdd fresh is value = .ok is' ∧ Holds is' (xs ++ value :: ys) := by
  have hnew : IsEncoding (valueEncoding value) := isEncoding_valueEncoding
  have hvfits : Fits (valueEncoding value) value := (fits_iff hnew hlo hhi).mpr le_rfl
  have hbetween := between_of_not_fits h.fits
    (fun hf => absurd ((fits_iff h.isEncoding hlo hhi).mp hf) (by omega))
  have hfits : ∀ v ∈ vs, Fits (valueEncoding value) v :=
    fun v hv => (h.fits v hv).mono (le_of_lt henc)
  unfold Intset.upgradeAndAdd
  dsimp only
  generalize valueEncoding value = enc at *
  have hpos := hnew.pos_le
  -- the size of the new block does not wrap
  have hmod : (vs.length + 1) % 2 ^ 32 = vs.length + 1 := Nat.mod_eq_of_lt (by omega)
  have hsize : (is.length + 1) % 2 ^ 32 * enc % 2 ^ 32 = (vs.length + 1) * enc := by
    have := Nat.mul_le_mul_left (vs.length + 1) hpos.2
    rw [h.length_eq, hmod, Nat.mod_eq_of_lt (by omega)]
  unfold resize
  rw [hsize]
  have hold : Stores is.encoding (zrealloc fresh is.contents ((vs.length + 1) * enc)) 0 vs := by
    refine stores_zrealloc h.stores ?_ ?_
    · rw [h.size_eq, zero_add]
    · exact Nat.mul_le_mul (by omega) (by omega)
  have hlen : (zrealloc fresh is.contents ((vs.length + 1) * enc)).length =
      (vs.length + 1) * enc := length_zrealloc
  generalize zrealloc fresh is.contents ((vs.length + 1) * enc) = buf at hold hlen ⊢
  rw [h.length_eq]
  have hloop : ∀ p ≤ 1, ∃ contents, upgradeLoop is.encoding p vs.length ⟨enc, vs.length, buf⟩ =
        .ok ⟨enc, vs.length, contents⟩ ∧
      contents.length = buf.length ∧ Stores enc contents p (vs ++ []) := by
    intro p hp
    refine upgradeLoop_eq h.isEncoding (le_of_lt henc) hnew ?_ ?_ hold hfits Stores.nil
    · rw [append_nil]
      omega
    rw [append_nil, hlen]
    exact Nat.mul_le_mul_right enc (by omega)
  split at hbetween
  · rename_i hneg
    obtain ⟨contents, hrun, hlen', hall⟩ := hloop 1 le_rfl
    rw [append_nil] at hall
    obtain ⟨contents', hset, hres⟩ : ∃ contents',
        set ⟨enc, vs.length, contents⟩ ([] : List Int).length value =
          .ok ⟨enc, vs.length, contents'⟩ ∧
        Holds ⟨enc, ([] ++ vs).length + 1, contents'⟩ ([] ++ value :: vs) :=
      set_between hnew (by simp; omega) (by rw [hlen', hlen, nil_append]) Stores.nil hall
        h.sorted hbetween hfits hvfits
    have hset' : set ⟨enc, vs.length, contents⟩ 0 value = .ok ⟨enc, vs.length, contents'⟩ := hset
    refine ⟨[], vs, _, rfl, hbetween, ?_, hres⟩
    simp only [if_pos hneg, hrun, ok_bind, if_true, hset', hmod, nil_append]
  rename_i hneg
  obtain ⟨contents, hrun, hlen', hall⟩ := hloop 0 (Nat.zero_le _)
  rw [append_nil] at hall
  obtain ⟨contents', hset, hres⟩ : ∃ contents',
      set ⟨enc, vs.length, contents⟩ vs.length value = .ok ⟨enc, vs.length, contents'⟩ ∧
      Holds ⟨enc, (vs ++ []).length + 1, contents'⟩ (vs ++ [value]) :=
    set_between hnew (by simp; omega) (by rw [hlen', hlen, append_nil]) hall Stores.nil
      (by rw [append_nil]; exact h.sorted) hbetween (by rwa [append_nil]) hvfits
  rw [append_nil] at hres
  refine ⟨vs, [], _, (append_nil _).symm, hbetween, ?_, hres⟩
  simp only [if_neg hneg, hrun, ok_bind, Nat.zero_ne_one, if_false, hset, hmod]

/-! ## One call -/

theorem moveTail_stores (henc : IsEncoding enc)
    (hn : (src + ys.length) * 8 < 2 ^ 32) (hsrc : (src + ys.length) * enc ≤ contents.length)
    (hdst : (dst + ys.length) * enc ≤ contents.length) (hle : xs.length ≤ dst)
    (hxs : Stores enc contents 0 xs) (hys : Stores enc contents src ys) :
    ∃ contents', moveTail ⟨enc, src + ys.length, contents⟩ src dst =
        .ok ⟨enc, src + ys.length, contents'⟩ ∧ contents'.length = contents.length ∧
      Stores enc contents' 0 xs ∧ Stores enc contents' dst ys := by
  have hsmall := Nat.mul_le_mul_left ys.length henc.pos_le.2
  have hbytes : (src + ys.length + 2 ^ 32 - src) % 2 ^ 32 * enc % 2 ^ 32 = ys.length * enc := by
    rw [show src + ys.length + 2 ^ 32 - src = ys.length + 2 ^ 32 by omega, Nat.add_mod_right,
      Nat.mod_eq_of_lt (show ys.length < 2 ^ 32 by omega), Nat.mod_eq_of_lt (by omega)]
  rw [Nat.add_mul] at hsrc hdst
  have hwrite : dst * enc + (slice contents (src * enc) (ys.length * enc)).length ≤
      contents.length := by
    rwa [length_slice hsrc]
  refine ⟨_, ?_, length_overwrite hwrite, hxs.overwrite_of_le hwrite ?_, hys.move hsrc hdst le_rfl⟩
  · rw [moveTail]
    rw [henc.width_eq, hbytes, memmove_eq hsrc hdst, ok_bind]
  rw [zero_add]
  exact Nat.mul_le_mul_right enc hle

theorem resize_eq (henc : IsEncoding is.encoding) (hn : len * 8 < 2 ^ 32) :
    resize fresh is len = { is with contents := zrealloc fresh is.contents (len * is.encoding) } := by
  have := Nat.mul_le_mul_left len henc.pos_le.2
  rw [resize, Nat.mod_eq_of_lt (by omega)]

theorem moveTail_open (henc : IsEncoding enc) (hn : (xs ++ ys).length * 8 < 2 ^ 32)
    (hlen : contents.length = ((xs ++ ys).length + 1) * enc)
    (h : Stores enc contents 0 (xs ++ ys)) :
    ∃ contents', (if xs.length < (xs ++ ys).length then
        moveTail ⟨enc, (xs ++ ys).length, contents⟩ xs.length (xs.length + 1)
      else .ok ⟨enc, (xs ++ ys).length, contents⟩) = .ok ⟨enc, (xs ++ ys).length, contents'⟩ ∧
      contents'.length = contents.length ∧ Stores enc contents' 0 xs ∧
      Stores enc contents' (xs.length + 1) ys := by
  rw [stores_append, zero_add] at h
  rw [length_append] at hn hlen ⊢
  split_ifs with hlt
  · have hle {k} (hk : k ≤ xs.length + ys.length + 1) : k * enc ≤ contents.length :=
      hlen ▸ Nat.mul_le_mul_right enc hk
    exact moveTail_stores henc hn (hle (by omega)) (hle (by omega)) (by omega) h.1 h.2
  obtain rfl : ys = [] := eq_nil_of_length_eq_zero (by omega)
  exact ⟨contents, rfl, rfl, h.1, Stores.nil⟩

theorem moveTail_close (henc : IsEncoding enc) (hn : (xs ++ value :: ys).length * 8 < 2 ^ 32)
    (hlen : contents.length = (xs ++ value :: ys).length * enc)
    (h : Stores enc contents 0 (xs ++ value :: ys)) :
    ∃ contents', (if xs.length < (xs ++ value :: ys).length - 1 then
        moveTail ⟨enc, (xs ++ value :: ys).length, contents⟩ (xs.length + 1) xs.length
      else .ok ⟨enc, (xs ++ value :: ys).length, contents⟩) =
        .ok ⟨enc, (xs ++ value :: ys).length, contents'⟩ ∧
      contents'.length = contents.length ∧ Stores enc contents' 0 (xs ++ ys) := by
  rw [stores_append, zero_add, stores_cons] at h
  rw [length_append, length_cons] at hn hlen ⊢
  split_ifs with hlt
  · rw [← add_assoc, Nat.add_right_comm] at hn hlen ⊢
    obtain ⟨contents', hmove, hlen', hxs, hys⟩ := moveTail_stores henc hn hlen.ge
      (hlen ▸ Nat.mul_le_mul_right enc (by omega)) le_rfl h.1 h.2.2
    exact ⟨contents', hmove, hlen', stores_append.mpr ⟨hxs, by rwa [zero_add]⟩⟩
  obtain rfl : ys = [] := eq_nil_of_length_eq_zero (by omega)
  exact ⟨contents, rfl, rfl, by rw [append_nil]; exact h.1⟩

section

variable (h : Holds is vs)
include h

/-- What an addition does: the value is there already, or it is put where it belongs. -/
theorem Holds.add (fresh : Nat → UInt8)
    (hn : (vs.length + 1) * 8 < 2 ^ 32 ∨ value ∈ vs) (hn' : vs.length * 8 < 2 ^ 32)
    (hlo : -9223372036854775808 ≤ value) (hhi : value ≤ 9223372036854775807) :
    (value ∈ vs ∧ intsetAdd fresh is value = .ok (is, false)) ∨
    ∃ xs ys is', vs = xs ++ ys ∧ Between xs ys value ∧
      intsetAdd fresh is value = .ok (is', true) ∧ Holds is' (xs ++ value :: ys) := by
  unfold intsetAdd
  by_cases henc : valueEncoding value > is.encoding
  · have hnew : value ∉ vs := fun hmem =>
      absurd ((fits_iff h.isEncoding hlo hhi).mp (h.fits value hmem)) (by omega)
    obtain ⟨xs, ys, is', hvs, hb, hrun, hres⟩ : ∃ xs ys is', vs = xs ++ ys ∧
        Between xs ys value ∧ Intset.upgradeAndAdd fresh is value = .ok is' ∧
        Holds is' (xs ++ value :: ys) :=
      h.upgradeAndAdd (hn.resolve_right hnew) hlo hhi henc
    refine Or.inr ⟨xs, ys, is', hvs, hb, ?_, hres⟩
    rw [if_pos henc, hrun, ok_bind]
  rw [if_neg henc]
  have hfit : Fits is.encoding value := (fits_iff h.isEncoding hlo hhi).mpr (by omega)
  obtain ⟨⟨found, pos⟩, hsearch, hloc⟩ : ∃ r, Intset.search is value = .ok r ∧
    Located vs value r := h.search hn'
  rw [hsearch, ok_bind]
  dsimp only
  cases found with
  | true => exact Or.inl ⟨mem_of_getElem? hloc, rfl⟩
  | false =>
    obtain ⟨xs, ys, rfl, rfl, hb⟩ := IsSlot.exists_append hloc
    have hsmall := hn.resolve_right (IsSlot.not_mem hloc)
    have hmod : (is.length + 1) % 2 ^ 32 = (xs ++ ys).length + 1 := by
      rw [h.length_eq, Nat.mod_eq_of_lt (by omega)]
    obtain ⟨enc, len, contents⟩ := is
    obtain ⟨rfl, hisenc, hsize, hstores, hsorted, hfits⟩ := h
    rw [if_neg Bool.false_ne_true, hmod, resize_eq hisenc hsmall]
    have hold : Stores enc (zrealloc fresh contents (((xs ++ ys).length + 1) * enc)) 0
        (xs ++ ys) := by
      refine stores_zrealloc hstores (Nat.le_of_eq (by rw [hsize, zero_add])) ?_
      exact Nat.mul_le_mul_right enc (by omega)
    obtain ⟨contents', hmove, hlen, hxs, hys⟩ := moveTail_open hisenc hn' length_zrealloc hold
    rw [length_zrealloc] at hlen
    obtain ⟨contents'', hset, hres⟩ : ∃ contents'',
        set ⟨enc, (xs ++ ys).length, contents'⟩ xs.length value =
          .ok ⟨enc, (xs ++ ys).length, contents''⟩ ∧
        Holds ⟨enc, (xs ++ ys).length + 1, contents''⟩ (xs ++ value :: ys) :=
      set_between hisenc (by omega) hlen hxs hys hsorted hb hfits hfit
    refine Or.inr ⟨xs, ys, _, rfl, hb, ?_, hres⟩
    rw [hmove, ok_bind, hset, ok_bind]
    rw [hmod]

theorem Holds.remove (fresh : Nat → UInt8) (hn : vs.length * 8 < 2 ^ 32)
    (hlo : -9223372036854775808 ≤ value) (hhi : value ≤ 9223372036854775807) :
    (value ∉ vs ∧ intsetRemove fresh is value = .ok (is, false)) ∨
    ∃ xs ys is', vs = xs ++ value :: ys ∧ intsetRemove fresh is value = .ok (is', true) ∧
      Holds is' (xs ++ ys) := by
  unfold intsetRemove
  by_cases henc : valueEncoding value ≤ is.encoding
  swap
  · refine Or.inl ⟨fun hmem => henc ?_, if_neg henc⟩
    exact (fits_iff h.isEncoding hlo hhi).mp (h.fits value hmem)
  rw [if_pos henc]
  obtain ⟨⟨found, pos⟩, hsearch, hloc⟩ : ∃ r, Intset.search is value = .ok r ∧
    Located vs value r := h.search hn
  rw [hsearch, ok_bind]
  obtain _ | _ := found
  · exact Or.inl ⟨IsSlot.not_mem hloc, if_neg Bool.false_ne_true⟩
  obtain ⟨hpos, hvalue⟩ := List.getElem?_eq_some_iff.mp hloc
  obtain ⟨xs, ys, rfl, rfl⟩ : ∃ xs ys, vs = xs ++ value :: ys ∧ pos = xs.length := by
    refine ⟨vs.take pos, vs.drop (pos + 1), ?_, by rw [length_take]; omega⟩
    rw [← hvalue, getElem_cons_drop, take_append_drop]
  obtain ⟨enc, len, contents⟩ := is
  obtain ⟨rfl, hisenc, hsize, hstores, hsorted, hfits⟩ := h
  dsimp only at hisenc hsize hstores hfits
  obtain ⟨contents', hmove, hlen, hall⟩ := moveTail_close hisenc hn hsize hstores
  have hlen' : (xs ++ value :: ys).length - 1 = (xs ++ ys).length := by simp
  refine Or.inr ⟨xs, ys, ⟨enc, (xs ++ ys).length,
    zrealloc fresh contents' ((xs ++ ys).length * enc)⟩, rfl, ?_, ?_⟩
  · dsimp only
    rw [if_pos rfl, hmove, ok_bind, hlen', resize_eq hisenc (by omega)]
  refine ⟨rfl, hisenc, length_zrealloc, ?_, ?_, ?_⟩
  · refine stores_zrealloc hall ?_ (Nat.le_of_eq (by rw [zero_add]))
    rw [hlen, hsize, zero_add]
    exact Nat.mul_le_mul_right enc (by omega)
  · exact hsorted.sublist (List.Sublist.append_left (sublist_cons_self _ _) xs)
  · exact fun v hv => hfits v (by simp at hv ⊢; tauto)

theorem Holds.find (hn : vs.length * 8 < 2 ^ 32)
    (hlo : -9223372036854775808 ≤ value) (hhi : value ≤ 9223372036854775807) :
    intsetFind is value = .ok (decide (value ∈ vs)) := by
  unfold intsetFind
  by_cases henc : valueEncoding value ≤ is.encoding
  · obtain ⟨⟨found, pos⟩, hsearch, hloc⟩ : ∃ r, Intset.search is value = .ok r ∧
      Located vs value r := h.search hn
    rw [if_pos henc, hsearch, ok_bind]
    cases found with
    | true => rw [decide_eq_true (mem_of_getElem? hloc)]
    | false => rw [decide_eq_false (IsSlot.not_mem hloc)]
  have hnot : value ∉ vs := fun hmem =>
    henc ((fits_iff h.isEncoding hlo hhi).mp (h.fits value hmem))
  rw [if_neg henc, decide_eq_false hnot]

theorem Holds.intsetGet (hn : vs.length * 8 < 2 ^ 32) (i : Nat) : intsetGet is i = .ok vs[i]? := by
  unfold Intset.intsetGet
  rw [h.length_eq]
  split_ifs with hlt
  · have hv : vs[i]? = some vs[i] := getElem?_eq_getElem hlt
    rw [h.get hn hv, ok_bind, hv]
  · rw [getElem?_eq_none (by omega)]

end

theorem holds_intsetNew : Holds intsetNew [] :=
  ⟨rfl, Or.inl rfl, rfl, Stores.nil, List.Pairwise.nil, by simp⟩

end

/-! ## Sequences of calls -/

/-- A call, with what the memory holds that `zrealloc` adds in it. -/
inductive Call where
  | add (value : Int) (fresh : Nat → UInt8)
  | remove (value : Int) (fresh : Nat → UInt8)

def Call.value : Call → Int
  | .add v _ => v
  | .remove v _ => v

def Call.exec : Call → Intset → Except Fault (Intset × Bool)
  | .add v fresh, is => intsetAdd fresh is v
  | .remove v fresh, is => intsetRemove fresh is v

/-- The same call on a set: the set, and whether it changes. -/
def Call.onSet : Call → Finset Int → Finset Int × Bool
  | .add v _, s => (insert v s, decide (v ∉ s))
  | .remove v _, s => (s.erase v, decide (v ∈ s))

/-- Calls one after the other on the array, with their results. -/
def execAll : List Call → Intset → Except Fault (Intset × List Bool)
  | [], is => .ok (is, [])
  | c :: cs, is => do
    let (is, b) ← c.exec is
    let (is, bs) ← execAll cs is
    .ok (is, b :: bs)

def onSetAll : List Call → Finset Int → Finset Int × List Bool
  | [], s => (s, [])
  | c :: cs, s =>
    let (s, b) := c.onSet s
    let (s, bs) := onSetAll cs s
    (s, b :: bs)

/-- No set on the way has `2 ^ 32 / 8` elements or more. -/
def Small : List Call → Finset Int → Prop
  | [], s => s.card * 8 < 2 ^ 32
  | c :: cs, s => s.card * 8 < 2 ^ 32 ∧ Small cs (c.onSet s).1

instance instDecidableSmall : ∀ (cs : List Call) (s : Finset Int), Decidable (Small cs s)
  | [], s => inferInstanceAs (Decidable (s.card * 8 < 2 ^ 32))
  | c :: cs, s =>
    have : Decidable (Small cs (c.onSet s).1) := instDecidableSmall cs (c.onSet s).1
    inferInstanceAs (Decidable (s.card * 8 < 2 ^ 32 ∧ Small cs (c.onSet s).1))

def decoded (is : Intset) : Except Fault (List Int) :=
  (List.range is.length).mapM fun i : Nat => get is i

section

variable {is : Intset} {vs : List Int} {c : Call} {cs : List Call}

theorem Holds.card (h : Holds is vs) : vs.toFinset.card = vs.length :=
  toFinset_card_of_nodup (h.sorted.imp Int.ne_of_lt)

theorem Holds.decoded (h : Holds is vs) (hn : vs.length * 8 < 2 ^ 32) : decoded is = .ok vs := by
  have hfrom : ∀ ws k, vs.drop k = ws →
      (List.range' k ws.length).mapM (fun i : Nat => Intset.get is i) = .ok ws := by
    intro ws
    induction ws with
    | nil => exact fun _ _ => rfl
    | cons w ws ih =>
      intro k hdrop
      have hw : vs[k]? = some w := by
        rw [← head?_drop, hdrop]
        rfl
      have htail : vs.drop (k + 1) = ws := by rw [← tail_drop, hdrop, tail_cons]
      rw [length_cons, range'_succ, mapM_cons, h.get hn hw, ok_bind, ih (k + 1) htail, ok_bind]
      rfl
  rw [Intset.decoded, h.length_eq, range_eq_range']
  exact hfrom vs 0 drop_zero

theorem Holds.call (h : Holds is vs) (hlo : -9223372036854775808 ≤ c.value)
    (hhi : c.value ≤ 9223372036854775807) (hn : vs.toFinset.card * 8 < 2 ^ 32)
    (hn' : (c.onSet vs.toFinset).1.card * 8 < 2 ^ 32) :
    ∃ is' vs', c.exec is = .ok (is', (c.onSet vs.toFinset).2) ∧ Holds is' vs' ∧
      vs'.toFinset = (c.onSet vs.toFinset).1 := by
  rw [h.card] at hn
  cases c with
  | add v fresh =>
    simp only [Call.onSet, Call.exec, mem_toFinset, Call.value] at hn' hlo hhi ⊢
    have hroom : (vs.length + 1) * 8 < 2 ^ 32 ∨ v ∈ vs := by
      by_cases hmem : v ∈ vs
      · exact Or.inr hmem
      rw [Finset.card_insert_of_notMem (by simpa using hmem), h.card] at hn'
      exact Or.inl hn'
    rcases h.add fresh hroom hn hlo hhi with
      ⟨hmem, hrun⟩ | ⟨xs, ys, is', rfl, hb, hrun, hres⟩
    · refine ⟨is, vs, ?_, h, ?_⟩
      · rw [hrun, decide_eq_false (not_not_intro hmem)]
      · rw [Finset.insert_eq_of_mem (by simpa using hmem)]
    have hmem : v ∉ xs ++ ys := by
      intro hmem
      rcases mem_append.mp hmem with hm | hm
      · exact absurd (hb.1 v hm) (Int.lt_irrefl _)
      · exact absurd (hb.2 v hm) (Int.lt_irrefl _)
    refine ⟨is', xs ++ v :: ys, ?_, hres, ?_⟩
    · rw [hrun, decide_eq_true hmem]
    ext x
    simp
  | remove v fresh =>
    simp only [Call.onSet, Call.exec, mem_toFinset, Call.value] at hlo hhi ⊢
    rcases h.remove fresh hn hlo hhi with ⟨hmem, hrun⟩ | ⟨xs, ys, is', rfl, hrun, hres⟩
    · refine ⟨is, vs, ?_, h, ?_⟩
      · rw [hrun, decide_eq_false hmem]
      · rw [Finset.erase_eq_of_notMem (by simpa using hmem)]
    have hne := h.sorted.imp Int.ne_of_lt
    rw [pairwise_append, pairwise_cons] at hne
    refine ⟨is', xs ++ ys, ?_, hres, ?_⟩
    · rw [hrun, decide_eq_true (by simp)]
    ext x
    simp only [mem_toFinset, mem_append, Finset.mem_erase, mem_cons]
    constructor
    · rintro (hx | hx)
      · exact ⟨hne.2.2 x hx v mem_cons_self, Or.inl hx⟩
      · exact ⟨(hne.2.1.1 x hx).symm, Or.inr (Or.inr hx)⟩
    rintro ⟨hxv, hx | rfl | hx⟩
    · exact Or.inl hx
    · exact absurd rfl hxv
    · exact Or.inr hx

theorem Holds.calls (h : Holds is vs)
    (hvalues : ∀ c ∈ cs, -9223372036854775808 ≤ c.value ∧ c.value ≤ 9223372036854775807)
    (hsmall : Small cs vs.toFinset) :
    ∃ is' vs', execAll cs is = .ok (is', (onSetAll cs vs.toFinset).2) ∧ Holds is' vs' ∧
      vs'.toFinset = (onSetAll cs vs.toFinset).1 ∧ vs'.length * 8 < 2 ^ 32 := by
  induction cs generalizing is vs with
  | nil => exact ⟨is, vs, rfl, h, rfl, by rw [← h.card]; exact hsmall⟩
  | cons c cs ih =>
    have hc := hvalues c mem_cons_self
    have hnext : (c.onSet vs.toFinset).1.card * 8 < 2 ^ 32 := by
      cases cs with
      | nil => exact hsmall.2
      | cons _ _ => exact hsmall.2.1
    obtain ⟨is', vs', hrun, h', hset⟩ := h.call hc.1 hc.2 hsmall.1 hnext
    obtain ⟨is'', vs'', hrun', h'', hset', hn⟩ :=
      ih h' (fun d hd => hvalues d (mem_cons_of_mem c hd)) (hset ▸ hsmall.2)
    rw [hset] at hrun' hset'
    refine ⟨is'', vs'', ?_, h'', hset', hn⟩
    rw [execAll, hrun, ok_bind]
    dsimp only
    rw [hrun', ok_bind]
    rfl

end

/-- Every sequence of additions and removals of 64-bit integers, from the empty set on and below
the size at which the block reaches `2 ^ 32` bytes, succeeds and reports what the same sequence on
a finite set reports. The array decodes to the strictly increasing list of that set, so that the
`i`-th read gives the `i`-th smallest element, and a search answers membership. -/
theorem intset_refines (cs : List Call)
    (hvalues : ∀ c ∈ cs, -9223372036854775808 ≤ c.value ∧ c.value ≤ 9223372036854775807)
    (hsmall : Small cs ∅) : ∃ is vs, execAll cs intsetNew = .ok (is, (onSetAll cs ∅).2) ∧
      decoded is = .ok vs ∧ vs.Pairwise (· < ·) ∧ vs.toFinset = (onSetAll cs ∅).1 ∧
      (∀ v, -9223372036854775808 ≤ v → v ≤ 9223372036854775807 →
        intsetFind is v = .ok (decide (v ∈ (onSetAll cs ∅).1))) ∧
      ∀ i, intsetGet is i = .ok vs[i]? := by
  obtain ⟨is, vs, hrun, h, hset, hn⟩ : ∃ is vs,
      execAll cs intsetNew = .ok (is, (onSetAll cs ∅).2) ∧ Holds is vs ∧
      vs.toFinset = (onSetAll cs ∅).1 ∧ vs.length * 8 < 2 ^ 32 :=
    holds_intsetNew.calls hvalues hsmall
  refine ⟨is, vs, hrun, h.decoded hn, h.sorted, hset, fun v hlo hhi => ?_, h.intsetGet hn⟩
  rw [h.find hn hlo hhi]
  simp only [← hset, mem_toFinset]

/-- Additions that make the array wider twice, in front and behind, and a removal. -/
def sampleCalls : List Call :=
  [.add 5 fun _ => 0, .add (-40000) fun _ => 255, .add 7 fun _ => 1, .add 3000000000 fun _ => 9,
    .add 7 fun _ => 0, .remove 5 fun _ => 0, .remove 6 fun _ => 0]

theorem intset_refines_sampleCalls : ∃ is vs,
    execAll sampleCalls intsetNew = .ok (is, [true, true, true, true, false, true, false]) ∧
    decoded is = .ok vs ∧ vs.Pairwise (· < ·) ∧ vs.toFinset = {-40000, 7, 3000000000} := by
  obtain ⟨is, vs, hrun, hdec, hsorted, hset, -⟩ := intset_refines sampleCalls (by decide) (by decide)
  exact ⟨is, vs, hrun, hdec, hsorted, hset.trans (by decide)⟩

end Intset

end UfsRedis
