import Mathlib.Data.List.Basic
import Mathlib.Data.Nat.ModEq

/-!
# A circular buffer that keeps the end of a stream

A buffer of fixed size is written in pieces that end where the buffer ends, and read in the same
way. It also counts how many of its cells hold data.

* `CircularBuffer.Holds r s`: the buffer was empty and `s` has been written to it;
* `CircularBuffer.Holds.write`: a write appends to the stream;
* `CircularBuffer.Holds.read`: a read gives the end of the stream.
-/

namespace Lib

open List

variable {α : Type*}

/-- The cells, the cell that is written next, and the number of cells that hold data. -/
structure CircularBuffer (α : Type*) where
  buf : List α
  idx : Nat
  histlen : Nat
  idx_lt : idx < buf.length

namespace CircularBuffer

def size (r : CircularBuffer α) : Nat := r.buf.length

theorem idx_lt_size (r : CircularBuffer α) : r.idx < r.size := r.idx_lt

theorem size_pos (r : CircularBuffer α) : 0 < r.size := Nat.zero_lt_of_lt r.idx_lt

/-- The buffer `buf`, without data. -/
def empty (buf : List α) (h : 0 < buf.length) : CircularBuffer α := ⟨buf, 0, 0, h⟩

/-- `l` with `p` written over it from cell `i` on. -/
def overwrite (l : List α) (i : Nat) (p : List α) : List α :=
  l.take i ++ p ++ l.drop (i + p.length)

theorem length_overwrite (h : i + p.length ≤ l.length) : (overwrite l i p).length = l.length := by
  simp only [overwrite, length_append, length_take, length_drop]
  omega

theorem getElem?_overwrite_of_lt (h : i + p.length ≤ l.length)
    (hj : j < p.length) : (overwrite l i p)[i + j]? = p[j]? := by
  have hi : (l.take i).length = i := by rw [length_take]; omega
  rw [overwrite, append_assoc, getElem?_append_right (by omega), hi,
    Nat.add_sub_cancel_left, getElem?_append_left hj]

theorem getElem?_overwrite_of_ne (h : i + p.length ≤ l.length)
    (hj : j < i ∨ i + p.length ≤ j) : (overwrite l i p)[j]? = l[j]? := by
  have hi : (l.take i).length = i := by rw [length_take]; omega
  rw [overwrite]
  rcases hj with hj | hj
  · rw [append_assoc, getElem?_append_left (by omega), getElem?_take_of_lt hj]
  rw [getElem?_append_right (by rw [length_append]; omega), length_append, hi,
    getElem?_drop, Nat.add_sub_cancel' hj]

/-- One piece is written: what fits between `idx` and the end of the buffer. -/
def put (r : CircularBuffer α) (p : List α) (h : r.idx + p.length ≤ r.size) : CircularBuffer α where
  buf := overwrite r.buf r.idx p
  idx := if r.idx + p.length = r.size then 0 else r.idx + p.length
  histlen := r.histlen + p.length
  idx_lt := by
    rw [length_overwrite h]
    split
    · exact r.size_pos
    · next hne => exact Nat.lt_of_le_of_ne h hne

theorem room (r : CircularBuffer α) (p : List α) :
    r.idx + (p.take (r.size - r.idx)).length ≤ r.size := by
  have := r.idx_lt_size
  rw [length_take]
  omega

def writeLoop (r : CircularBuffer α) (p : List α) : CircularBuffer α :=
  if p = [] then r
  else writeLoop (r.put (p.take (r.size - r.idx)) (r.room p)) (p.drop (r.size - r.idx))
termination_by p.length
decreasing_by
  have := r.idx_lt_size
  have : 0 < p.length := List.length_pos_iff.mpr ‹_›
  rw [List.length_drop]
  omega

def write (r : CircularBuffer α) (p : List α) : CircularBuffer α :=
  { writeLoop r p with histlen := min (writeLoop r p).histlen r.size }

/-- The loop of a read of `len` cells from cell `j` on. -/
def readLoop (r : CircularBuffer α) (j : Fin r.size) (len : Nat) : List α :=
  if len = 0 then []
  else (r.buf.drop j).take (min (r.size - j) len) ++
    readLoop r ⟨0, r.size_pos⟩ (len - min (r.size - j) len)
termination_by len

/-- A read of the data, without its first `skip` cells. -/
def read (r : CircularBuffer α) (skip : Nat) : List α :=
  readLoop r ⟨((r.idx + (r.size - r.histlen)) % r.size + skip) % r.size, Nat.mod_lt _ r.size_pos⟩
    (r.histlen - skip)

/-! ## The stream -/

/-- The cells hold the end of the stream `s`: position `k` is in cell `k % size`. -/
structure Cells (r : CircularBuffer α) (s : List α) : Prop where
  idx : r.idx = s.length % r.size
  cell : ∀ k < s.length, s.length ≤ k + r.size → r.buf[k % r.size]? = s[k]?

/-- The stream `s` has been written to the empty buffer. -/
structure Holds (r : CircularBuffer α) (s : List α) : Prop extends Cells r s where
  histlen : r.histlen = min s.length r.size

theorem empty_holds (buf : List α) (h : 0 < buf.length) : (empty buf h).Holds [] :=
  ⟨⟨by simp [empty], by simp⟩, by simp [empty]⟩

section

variable (r : CircularBuffer α) (p : List α)
include r p

@[simp] theorem size_put (h) : (r.put p h).size = r.size := length_overwrite h

@[simp] theorem size_writeLoop : (r.writeLoop p).size = r.size := by
  fun_induction writeLoop r p with
  | case1 => rfl
  | case2 r p hp ih => rw [ih, size_put]

@[simp] theorem size_write : (r.write p).size = r.size := size_writeLoop r p

end

theorem eq_of_mod_eq {i j n : Nat} (h : i % n = j % n) (hle : i ≤ j) (hlt : j < i + n) : i = j := by
  have hd : n ∣ j - i := (Nat.modEq_iff_dvd' hle).mp h
  have := Nat.eq_zero_of_dvd_of_lt hd (by omega)
  omega

section

variable {r : CircularBuffer α} {s p : List α}

theorem Cells.add_mod (hr : r.Cells s) (t : Nat) :
    (s.length + t) % r.size = (r.idx + t) % r.size := by
  rw [← Nat.mod_add_mod, ← hr.idx]

theorem Cells.put (hr : r.Cells s) (h : r.idx + p.length ≤ r.size) :
    (r.put p h).Cells (s ++ p) := by
  constructor
  · rw [size_put, length_append, hr.add_mod]
    show (if r.idx + p.length = r.size then 0 else r.idx + p.length) = _
    split
    · next heq => rw [heq, Nat.mod_self]
    · next hne => rw [Nat.mod_eq_of_lt (lt_of_le_of_ne h hne)]
  intro k hk hsize
  rw [size_put] at hsize ⊢
  rw [length_append] at hk hsize
  show (overwrite r.buf r.idx p)[k % r.size]? = _
  by_cases hnew : s.length ≤ k
  · -- a position of `p`
    obtain ⟨t, rfl⟩ := Nat.exists_eq_add_of_le hnew
    have ht : t < p.length := by omega
    rw [hr.add_mod, Nat.mod_eq_of_lt (by omega), getElem?_overwrite_of_lt h ht,
      getElem?_append_right hnew, Nat.add_sub_cancel_left]
  -- a position of `s`, whose cell `p` does not reach
  rw [not_le] at hnew
  rw [getElem?_append_left hnew, ← hr.cell k hnew (by omega)]
  refine getElem?_overwrite_of_ne h ?_
  by_contra hcell
  have hmod : k % r.size = (s.length + (k % r.size - r.idx)) % r.size := by
    rw [hr.add_mod, Nat.add_sub_cancel' (by omega), Nat.mod_mod]
  have := eq_of_mod_eq hmod (by omega) (by omega)
  omega

theorem Cells.writeLoop (hr : r.Cells s) : (r.writeLoop p).Cells (s ++ p) := by
  fun_induction CircularBuffer.writeLoop r p generalizing s with
  | case1 => rwa [append_nil]
  | case2 r p hp ih =>
    have := ih (hr.put (r.room p))
    rwa [append_assoc, take_append_drop] at this

theorem histlen_writeLoop (r : CircularBuffer α) (p : List α) :
    (r.writeLoop p).histlen = r.histlen + p.length := by
  fun_induction CircularBuffer.writeLoop r p with
  | case1 => rfl
  | case2 r p hp ih =>
    have hsplit := congrArg List.length (take_append_drop (r.size - r.idx) p)
    rw [length_append] at hsplit
    rw [ih, put, add_assoc, hsplit]

theorem Holds.write (hr : r.Holds s) (p : List α) : (r.write p).Holds (s ++ p) := by
  have hcells := hr.toCells.writeLoop (p := p)
  refine ⟨⟨hcells.idx, hcells.cell⟩, ?_⟩
  show min (r.writeLoop p).histlen r.size = _
  rw [histlen_writeLoop, hr.histlen, size_write, length_append]
  omega

end

variable {r : CircularBuffer α} {s : List α}

theorem Cells.piece (hr : r.Cells s) (hs : s.length ≤ k + r.size)
    (hn : k + n ≤ s.length) (hend : k % r.size + n ≤ r.size) :
    (r.buf.drop (k % r.size)).take n = (s.drop k).take n := by
  refine ext_getElem? fun t => ?_
  by_cases ht : t < n
  · have hmod : (k + t) % r.size = k % r.size + t := by
      rw [← Nat.mod_add_mod, Nat.mod_eq_of_lt (by omega)]
    rw [getElem?_take_of_lt ht, getElem?_take_of_lt ht, getElem?_drop,
      getElem?_drop, ← hmod, hr.cell (k + t) (by omega) (by omega)]
  · rw [getElem?_take_eq_none (by omega), getElem?_take_eq_none (by omega)]

theorem Cells.readLoop (hr : r.Cells s) (hs : s.length ≤ k + r.size)
    (j : Fin r.size) (hj : j = k % r.size) : r.readLoop j (s.length - k) = s.drop k := by
  generalize hlen : s.length - k = len
  fun_induction CircularBuffer.readLoop r j len generalizing k with
  | case1 => rw [drop_eq_nil_of_le (by omega)]
  | case2 j len hne ih =>
    have hpiece := hr.piece (n := min (r.size - j) len) hs (by omega) (by omega)
    rw [← hj] at hpiece
    rw [hpiece]
    by_cases hwrap : r.size - j ≤ len
    · -- the next piece starts at the first cell
      have hmod : (k + (r.size - j)) % r.size = 0 := by
        rw [← Nat.mod_add_mod, ← hj, Nat.add_sub_cancel' (by omega), Nat.mod_self]
      rw [Nat.min_eq_left hwrap] at ih ⊢
      rw [ih (k := k + (r.size - j)) (by omega) hmod.symm (by omega), ← drop_drop, take_append_drop]
    rw [Nat.min_eq_right (by omega), Nat.sub_self, CircularBuffer.readLoop, if_pos rfl, append_nil,
      take_of_length_le (by rw [length_drop]; omega)]

theorem Holds.start (hr : r.Holds s) :
    (r.idx + (r.size - r.histlen)) % r.size = (s.length - r.histlen) % r.size := by
  rw [hr.histlen]
  by_cases h : s.length < r.size
  · rw [Nat.min_eq_left (by omega), hr.idx, Nat.mod_eq_of_lt h, Nat.add_sub_cancel' (by omega),
      Nat.mod_self, Nat.sub_self, Nat.zero_mod]
  rw [Nat.min_eq_right (by omega), Nat.sub_self, Nat.add_zero, Nat.mod_eq_of_lt r.idx_lt_size, hr.idx,
    Nat.mod_eq_sub_mod (by omega)]

theorem Holds.read (hr : r.Holds s) (h : skip ≤ r.histlen) :
    r.read skip = s.drop (s.length - r.histlen + skip) := by
  have hlen := hr.histlen
  have hj : (((r.idx + (r.size - r.histlen)) % r.size + skip) % r.size) =
      (s.length - r.histlen + skip) % r.size := by
    rw [hr.start, Nat.mod_add_mod]
  rw [← hr.toCells.readLoop (by omega) ⟨_, Nat.mod_lt _ r.size_pos⟩ hj, CircularBuffer.read]
  congr 1
  omega

end CircularBuffer

end Lib
