import UfsRedis.Types.HyperLogLog
import Mathlib.Tactic.LinearCombination
import Mathlib.Tactic.Ring

/-!
# Dense registers as bits

The bytes of a dense HLL are one sequence of bits, in which register `r` has the bits from `6 * r`
on. Reading and writing a register is described by these bits only, so that registers that cross the
border of a byte are like the others.

* `denseGetRegister_eq`, `testBit_register`: what is read;
* `denseSetRegister_spec`: what is written, and that the other bits stay;
* `Dense p regs`: the registers of a dense HLL.
-/

namespace UfsRedis.Hll

open List Lib Option

variable {p : List UInt8} {regs : List Nat} {i k r v : Nat}

/-- Bit `k` of a block of bytes, the lowest bit of a byte first. -/
def bit (p : List UInt8) (k : Nat) : Bool := (p.getD (k / 8) 0).toBitVec.getLsbD (k % 8)

def register (p : List UInt8) (r : Nat) : Nat :=
  ((p.getD (r * 6 / 8) 0).toNat >>> (r * 6 % 8) |||
    (p.getD (r * 6 / 8 + 1) 0).toNat <<< (8 - r * 6 % 8)) &&& 63

theorem denseGetRegister_eq (h : r * 6 / 8 + 1 < p.length) :
    denseGetRegister p r = .ok (register p r) := by
  have h0 : p[r * 6 / 8]? = some (p.getD (r * 6 / 8) 0) := by
    rw [getD_eq_getElem?_getD, getElem?_eq_getElem (by omega), getD_some]
  have h1 : p[r * 6 / 8 + 1]? = some (p.getD (r * 6 / 8 + 1) 0) := by
    rw [getD_eq_getElem?_getD, getElem?_eq_getElem h, getD_some]
  have hfb : r * 6 &&& 7 = r * 6 % 8 := Nat.and_two_pow_sub_one_eq_mod (r * 6) 3
  unfold denseGetRegister hllBits registerMax
  rw [hfb]
  simp [loadByte_eq h0, loadByte_eq h1, register]

variable {b : UInt8} {bs : List UInt8}

theorem testBit_byte (i : Nat) : b.toNat.testBit i = b.toBitVec.getLsbD i :=
  BitVec.testBit_toNat b.toBitVec

theorem testBit_63 (i : Nat) : Nat.testBit 63 i = decide (i < 6) := Nat.testBit_two_pow_sub_one 6 i

theorem register_lt : register p r < 64 := lt_of_le_of_lt Nat.and_le_right (by omega)

theorem testBit_register (hi : i < 6) : (register p r).testBit i = bit p (r * 6 + i) := by
  rw [register, Nat.testBit_and, Nat.testBit_or, Nat.testBit_shiftRight, Nat.testBit_shiftLeft,
    testBit_63, decide_eq_true hi, testBit_byte, testBit_byte, bit]
  by_cases hlow : r * 6 % 8 + i < 8
  · rw [decide_eq_false (show ¬ i ≥ 8 - r * 6 % 8 by omega),
      show (r * 6 + i) / 8 = r * 6 / 8 by omega, show (r * 6 + i) % 8 = r * 6 % 8 + i by omega]
    simp
  rw [decide_eq_true (show i ≥ 8 - r * 6 % 8 by omega), BitVec.getLsbD_of_ge _ _ (by omega),
    show (r * 6 + i) / 8 = r * 6 / 8 + 1 by omega,
    show (r * 6 + i) % 8 = i - (8 - r * 6 % 8) by omega]
  simp

theorem eq_of_bits {a b : Nat} (ha : a < 64) (hb : b < 64)
    (h : ∀ i < 6, a.testBit i = b.testBit i) : a = b := by
  refine Nat.eq_of_testBit_eq fun i => ?_
  by_cases hi : i < 6
  · exact h i hi
  have hpow : 2 ^ 6 ≤ 2 ^ i := Nat.pow_le_pow_right (by omega) (by omega)
  rw [Nat.testBit_lt_two_pow (by omega), Nat.testBit_lt_two_pow (by omega)]

theorem getLsbD_update (hk : k < 8) :
    (b &&& ~~~ UInt8.ofNat m ||| UInt8.ofNat n).toBitVec.getLsbD k =
      (b.toBitVec.getLsbD k && !m.testBit k || n.testBit k) := by
  have hofNat (a : Nat) : (UInt8.ofNat a).toBitVec.getLsbD k = a.testBit k := by
    rw [show (UInt8.ofNat a).toBitVec = BitVec.ofNat 8 a from rfl, BitVec.getLsbD_ofNat,
      decide_eq_true hk, Bool.true_and]
  rw [UInt8.toBitVec_or, UInt8.toBitVec_and, UInt8.toBitVec_not, BitVec.getLsbD_or,
    BitVec.getLsbD_and, BitVec.getLsbD_not, hofNat, hofNat, decide_eq_true hk, Bool.true_and]

theorem denseSetRegister_eq (h : r * 6 / 8 + 1 < p.length) : denseSetRegister p r v = .ok
    ((p.set (r * 6 / 8) (p.getD (r * 6 / 8) 0 &&& ~~~ UInt8.ofNat (63 <<< (r * 6 % 8)) |||
        UInt8.ofNat (v <<< (r * 6 % 8)))).set (r * 6 / 8 + 1)
      (p.getD (r * 6 / 8 + 1) 0 &&& ~~~ UInt8.ofNat (63 >>> (8 - r * 6 % 8)) |||
        UInt8.ofNat (v >>> (8 - r * 6 % 8)))) := by
  have hlt : r * 6 / 8 < p.length := by omega
  have hfb : r * 6 &&& 7 = r * 6 % 8 := Nat.and_two_pow_sub_one_eq_mod (r * 6) 3
  unfold denseSetRegister hllBits registerMax
  rw [hfb]
  simp [loadByte, storeByte, hlt, h]

theorem denseSetRegister_spec (h : r * 6 / 8 + 1 < p.length) (hv : v < 64) :
    ∃ p', denseSetRegister p r v = .ok p' ∧ p'.length = p.length ∧
      ∀ k, bit p' k = if r * 6 ≤ k ∧ k < r * 6 + 6 then v.testBit (k - r * 6) else bit p k := by
  refine ⟨_, denseSetRegister_eq h, by simp, fun k => ?_⟩
  have hk : k % 8 < 8 := by omega
  by_cases h0 : k / 8 = r * 6 / 8
  · -- the lower byte: the bits from `r * 6 % 8` on
    rw [bit, getD_eq_getElem?_getD, getElem?_set_ne (by omega), ← h0, getElem?_set_self (by omega),
      getD_some, getLsbD_update hk, Nat.testBit_shiftLeft, Nat.testBit_shiftLeft, testBit_63]
    split
    · rw [decide_eq_true (show k % 8 ≥ r * 6 % 8 by omega),
        decide_eq_true (show k % 8 - r * 6 % 8 < 6 by omega),
        show k % 8 - r * 6 % 8 = k - r * 6 by omega]
      simp
    rw [bit]
    by_cases hge : k % 8 ≥ r * 6 % 8
    · have : v.testBit (k % 8 - r * 6 % 8) = false :=
        Nat.testBit_lt_two_pow (lt_of_lt_of_le hv (Nat.pow_le_pow_right (n := 2) (by omega)
          (show 6 ≤ k % 8 - r * 6 % 8 by omega)))
      rw [this, decide_eq_false (show ¬ k % 8 - r * 6 % 8 < 6 by omega)]
      simp
    rw [decide_eq_false hge]
    simp
  by_cases h1 : k / 8 = r * 6 / 8 + 1
  · -- the upper byte: what is left of the register
    rw [bit, getD_eq_getElem?_getD, ← h1, getElem?_set_self (by rw [length_set]; omega),
      getD_some, getLsbD_update hk, Nat.testBit_shiftRight, Nat.testBit_shiftRight, testBit_63]
    by_cases hin : r * 6 ≤ k ∧ k < r * 6 + 6
    · rw [if_pos hin, decide_eq_true (show 8 - r * 6 % 8 + k % 8 < 6 by omega),
        show 8 - r * 6 % 8 + k % 8 = k - r * 6 by omega]
      simp
    have : v.testBit (8 - r * 6 % 8 + k % 8) = false :=
      Nat.testBit_lt_two_pow (lt_of_lt_of_le hv (Nat.pow_le_pow_right (n := 2) (by omega)
        (show 6 ≤ 8 - r * 6 % 8 + k % 8 by omega)))
    rw [if_neg hin, bit, this, decide_eq_false (show ¬ 8 - r * 6 % 8 + k % 8 < 6 by omega)]
    simp
  rw [if_neg (by omega), bit, bit, getD_eq_getElem?_getD, getElem?_set_ne (by omega),
    getElem?_set_ne (by omega), getD_eq_getElem?_getD]

theorem register_denseSetRegister {p'} (hv : v < 64)
    (hbits : ∀ k, bit p' k = if r * 6 ≤ k ∧ k < r * 6 + 6 then v.testBit (k - r * 6) else bit p k)
    (i : Nat) : register p' i = if i = r then v else register p i := by
  split_ifs with hi
  · subst hi
    refine eq_of_bits register_lt hv fun j hj => ?_
    rw [testBit_register hj, hbits, if_pos (by omega), Nat.add_sub_cancel_left]
  refine eq_of_bits register_lt register_lt fun j hj => ?_
  rw [testBit_register hj, testBit_register hj, hbits, if_neg (by omega)]

/-- The registers of a dense HLL, in the bytes with the NUL. -/
structure Dense (p : List UInt8) (regs : List Nat) : Prop where
  length_eq : p.length = denseSize + 1
  nul : p.getD denseSize 0 = 0
  length_regs : regs.length = numRegisters
  get : ∀ i, i < numRegisters → regs[i]? = some (register p i)

theorem getD_eq_of_bits (h : ∀ j < 8, bit p (8 * i + j) = bit q (8 * i + j)) :
    p.getD i 0 = q.getD i 0 := by
  refine UInt8.toBitVec_inj.mp (BitVec.eq_of_getLsbD_eq fun j hj => ?_)
  have := h j hj
  rwa [bit, bit, show (8 * i + j) / 8 = i by omega, show (8 * i + j) % 8 = j by omega] at this

namespace Dense

variable {q : List UInt8}

theorem bit_eq (h : Dense p regs) (hk : k < denseSize * 8) :
    regs[k / 6]?.map (·.testBit (k % 6)) = some (bit p k) := by
  have hsize : denseSize * 8 = numRegisters * 6 := rfl
  have hbit := testBit_register (p := p) (r := k / 6) (show k % 6 < 6 by omega)
  rw [h.get _ (by omega), map_some, hbit, mul_comm, Nat.div_add_mod]

theorem unique (hp : Dense p regs) (hq : Dense q regs) : p = q := by
  refine ext_getElem (hp.length_eq.trans hq.length_eq.symm) fun i hi hi' => ?_
  have hget : p.getD i 0 = q.getD i 0 := by
    rw [hp.length_eq] at hi
    by_cases hlast : i = denseSize
    · rw [hlast, hp.nul, hq.nul]
    refine getD_eq_of_bits fun j hj => ?_
    have h1 := hp.bit_eq (k := 8 * i + j) (by omega)
    rw [hq.bit_eq (by omega)] at h1
    exact (some.inj h1).symm
  simpa [getElem?_eq_getElem hi, getElem?_eq_getElem hi'] using hget

theorem zero : Dense (withNul (List.replicate denseSize 0)) (List.replicate numRegisters 0) := by
  have hbyte (i : Nat) : (withNul (List.replicate denseSize 0)).getD i 0 = 0 := by
    rw [withNul, ← replicate_succ', getD_eq_getElem?_getD, getElem?_replicate]
    split <;> rfl
  refine ⟨by simp [withNul], hbyte _, by simp, fun i hi => ?_⟩
  rw [getElem?_replicate, if_pos hi, register, hbyte, hbyte]
  simp

section

variable (h : Dense p regs) (hr : r < numRegisters)
include h hr

theorem index_lt : r * 6 / 8 + 1 < p.length := by
  have hsize : denseSize * 8 = numRegisters * 6 := rfl
  rw [h.length_eq]
  omega

theorem set (hv : v < 64) : ∃ p', denseSetRegister p r v = .ok p' ∧ Dense p' (regs.set r v) := by
  have hsize : denseSize * 8 = numRegisters * 6 := rfl
  obtain ⟨p', hset, hlen, hbits⟩ := denseSetRegister_spec (h.index_lt hr) hv
  refine ⟨p', hset, hlen.trans h.length_eq, ?_, by rw [length_set, h.length_regs], fun i hi => ?_⟩
  · have hsame : p'.getD denseSize 0 = p.getD denseSize 0 := getD_eq_of_bits fun j _ => by
      rw [hbits, if_neg (by omega)]
    rw [hsame, h.nul]
  rw [getElem?_set, h.length_regs, register_denseSetRegister hv hbits]
  by_cases hir : i = r
  · rw [if_pos hir.symm, if_pos hir, if_pos hr]
  · rw [if_neg (Ne.symm hir), if_neg hir, h.get i hi]

theorem hllDenseSet (hold : regs[r]? = some old) (hv : v < 64) :
    ∃ p', hllDenseSet p r v = .ok (p', decide (v > old)) ∧ Dense p' (regs.set r (max old v)) := by
  have hreg : register p r = old := by
    have := h.get r hr
    rw [hold] at this
    exact (some.inj this).symm
  unfold Hll.hllDenseSet
  rw [denseGetRegister_eq (h.index_lt hr), ok_bind, hreg]
  by_cases hgt : v > old
  · obtain ⟨p', hset, h'⟩ := h.set hr hv
    refine ⟨p', ?_, ?_⟩
    · rw [if_pos hgt, hset, ok_bind, decide_eq_true hgt]
    · rwa [max_eq_right (le_of_lt hgt)]
  refine ⟨p, ?_, ?_⟩
  · rw [if_neg hgt, decide_eq_false hgt]
  rw [Nat.max_eq_left (Nat.le_of_not_lt hgt)]
  obtain ⟨hlt, rfl⟩ := List.getElem?_eq_some_iff.mp hold
  rwa [set_getElem_self]

end

theorem take_withNul (h : Dense p regs) : withNul (p.take denseSize) = p := by
  have hlast : p.drop denseSize = [0] := by
    have hlt : denseSize < p.length := by
      rw [h.length_eq]
      omega
    have hnul := h.nul
    rw [getD_eq_getElem?_getD, getElem?_eq_getElem hlt, getD_some] at hnul
    rw [drop_eq_getElem_cons hlt, hnul, drop_eq_nil_of_le (by rw [h.length_eq])]
  rw [withNul, ← hlast, take_append_drop]

end Dense

/-! ## Merging -/

def raised (b : UInt8) (val : Nat) : UInt8 := UInt8.ofNat (max b.toNat val)

theorem raise_append (pre post : List UInt8) (b : UInt8) (val : Nat) :
    raise (pre ++ b :: post) pre.length val = .ok (pre ++ raised b val :: post) := by
  have hload : (pre ++ b :: post)[pre.length]? = some b := by simp
  rw [raise, loadByte_eq hload, ok_bind, raised]
  split_ifs with hgt
  · rw [storeByte_eq (by simp), max_eq_right (le_of_lt hgt)]
    simp
  · rw [Nat.max_eq_left (by omega), UInt8.ofNat_toNat]

theorem mergeDense_eq (h : Dense p regs) (pre post : List UInt8)
    (hlen : pre.length + post.length = numRegisters) :
    mergeDense p post.length pre.length (pre ++ post) =
      .ok (pre ++ List.zipWith raised post (regs.drop pre.length)) := by
  induction post generalizing pre with
  | nil => simp [mergeDense]
  | cons b post ih =>
    rw [length_cons] at hlen
    have hr : pre.length < numRegisters := by omega
    have hdrop : regs.drop pre.length = register p pre.length :: regs.drop (pre.length + 1) := by
      have hlt : pre.length < regs.length := by rw [h.length_regs]; exact hr
      have hget := h.get _ hr
      rw [getElem?_eq_getElem hlt, some.injEq] at hget
      rw [drop_eq_getElem_cons hlt, hget]
    have hrest := ih (pre ++ [raised b (register p pre.length)]) (by simp; omega)
    rw [length_cons, mergeDense, denseGetRegister_eq (h.index_lt hr), ok_bind, raise_append,
      ok_bind, hdrop, zipWith_cons_cons]
    simpa using hrest

/-! ## The sums -/

/-- The sum of `2 ^ -r` over the registers. -/
def registerSum : List Nat → Rat
  | [] => 0
  | r :: rs => pe r + registerSum rs

theorem registerSum_append (rs ss : List Nat) :
    registerSum (rs ++ ss) = registerSum rs + registerSum ss := by
  induction rs with
  | nil => simp [registerSum]
  | cons r rs ih => rw [cons_append, registerSum, registerSum, ih]; ring

theorem and_63_of_shift (a b : Nat) (hs : 6 ≤ s) : (a ||| b <<< s) &&& 63 = a &&& 63 := by
  refine Nat.eq_of_testBit_eq fun i => ?_
  rw [Nat.testBit_and, Nat.testBit_and, Nat.testBit_or, Nat.testBit_shiftLeft, testBit_63]
  by_cases hi : i < 6
  · rw [decide_eq_false (show ¬ i ≥ s by omega)]
    simp
  · simp [hi]

theorem register_quad (p : List UInt8) (q : Nat) :
    register p (4 * q) = (p.getD (3 * q) 0).toNat &&& 63 ∧ register p (4 * q + 1) =
      ((p.getD (3 * q) 0).toNat >>> 6 ||| (p.getD (3 * q + 1) 0).toNat <<< 2) &&& 63 ∧
    register p (4 * q + 2) =
      ((p.getD (3 * q + 1) 0).toNat >>> 4 ||| (p.getD (3 * q + 2) 0).toNat <<< 4) &&& 63 ∧
    register p (4 * q + 3) = (p.getD (3 * q + 2) 0).toNat >>> 2 &&& 63 := by
  simp only [register]
  refine ⟨?_, ?_, ?_, ?_⟩
  · rw [show 4 * q * 6 / 8 = 3 * q by omega, show 4 * q * 6 % 8 = 0 by omega, Nat.shiftRight_zero,
      and_63_of_shift _ _ (by omega)]
  · rw [show (4 * q + 1) * 6 / 8 = 3 * q by omega, show (4 * q + 1) * 6 % 8 = 6 by omega]
  · rw [show (4 * q + 2) * 6 / 8 = 3 * q + 1 by omega, show (4 * q + 2) * 6 % 8 = 4 by omega]
  rw [show (4 * q + 3) * 6 / 8 = 3 * q + 2 by omega, show (4 * q + 3) * 6 % 8 = 2 by omega,
    and_63_of_shift _ _ (by omega)]

theorem denseRound_eq (p : List UInt8) (j : Nat) :
    denseRound (fun i => (p.getD (12 * j + i) 0).toNat) =
      (List.range' (16 * j) 16).map (register p) := by
  obtain ⟨a0, a1, a2, a3⟩ := register_quad p (4 * j)
  obtain ⟨b0, b1, b2, b3⟩ := register_quad p (4 * j + 1)
  obtain ⟨c0, c1, c2, c3⟩ := register_quad p (4 * j + 2)
  obtain ⟨d0, d1, d2, d3⟩ := register_quad p (4 * j + 3)
  simp only [mul_add, Nat.reduceMul, add_assoc, Nat.reduceAdd, ← mul_assoc] at *
  simp [denseRound, range'_succ, *]

theorem roundSum_range' (f : Nat → Nat) (k : Nat) :
    roundSum ((List.range' k 16).map f) = registerSum ((List.range' k 16).map f) := by
  simp only [range'_succ, range'_zero, map_cons, map_nil, roundSum, registerSum,
    getD_cons_zero, getD_cons_succ]
  ring

theorem denseSumLoop_eq (h : Dense p regs) (hj : j + rounds = 1024) (e : Rat)
    (ez : Nat) : denseSumLoop p rounds (12 * j) e ez =
      .ok (e + registerSum (regs.drop (16 * j)), ez + (regs.drop (16 * j)).count 0) := by
  induction rounds generalizing j e ez with
  | zero =>
    have hend : regs.drop (16 * j) = [] := drop_eq_nil_of_le (by
      rw [h.length_regs, numRegisters]
      omega)
    rw [denseSumLoop, hend, registerSum, count_nil, Nat.add_zero, Rat.add_zero]
  | succ rounds ih =>
    have hlen : 12 * j + 12 ≤ p.length := by
      rw [h.length_eq]
      simp only [denseSize, numRegisters, hllBits]
      omega
    have hbytes : (fun i => ((slice p (12 * j) 12).getD i 0).toNat) =
        fun i => if i < 12 then (p.getD (12 * j + i) 0).toNat else 0 := by
      funext i
      rw [getD_eq_getElem?_getD, getElem?_slice]
      split_ifs
      · rw [getD_eq_getElem?_getD]
      · rfl
    have hround : denseRound (fun i => ((slice p (12 * j) 12).getD i 0).toNat) =
        (List.range' (16 * j) 16).map (register p) := by
      rw [← denseRound_eq, hbytes]
      rfl
    have hregs : regs.drop (16 * j) =
        (List.range' (16 * j) 16).map (register p) ++ regs.drop (16 * (j + 1)) := by
      rw [← take_append_drop 16 (regs.drop (16 * j)), drop_drop,
        show 16 * j + 16 = 16 * (j + 1) by omega]
      congr 1
      refine ext_getElem? fun i => ?_
      by_cases hi : i < 16
      · rw [getElem?_take_of_lt hi, getElem?_drop, h.get _ (by simp only [numRegisters]; omega),
          getElem?_map, getElem?_range' hi, map_some, one_mul]
      · rw [getElem?_eq_none (by simp; omega), getElem?_eq_none (by simp; omega)]
    rw [denseSumLoop, load_eq hlen, ok_bind]
    dsimp only
    rw [hround, roundSum_range', show 12 * j + 12 = 12 * (j + 1) by omega, ih (by omega), hregs,
      registerSum_append, count_append, Rat.add_assoc, add_assoc]

theorem Dense.hllDenseSum (h : Dense p regs) :
    hllDenseSum p = .ok (registerSum regs, regs.count 0) := by
  have hloop : denseSumLoop p 1024 (12 * 0) 0 0 =
      .ok (0 + registerSum (regs.drop (16 * 0)), 0 + (regs.drop (16 * 0)).count 0) :=
    denseSumLoop_eq h rfl 0 0
  simpa [Hll.hllDenseSum, Rat.zero_add] using hloop

theorem eq_replicate_of_leNat (h : leNat bs = 0) : bs = List.replicate bs.length 0 := by
  induction bs with
  | nil => rfl
  | cons b bs ih =>
    rw [leNat] at h
    have hb : b = 0 := UInt8.toNat_inj.mp (show b.toNat = 0 by omega)
    rw [hb, length_cons, replicate_succ, ← ih (by omega)]

/-- The lines of `hllRawSum` for some registers: with the zero registers added at the end, the sum
is the one over the registers. -/
theorem foldlM_rawAdd (rs : List Nat) (hrs : ∀ r ∈ rs, r < 64) (e : Rat) (ez : Nat) :
    ∃ e', (rs.map UInt8.ofNat).foldlM rawAdd (e, ez) = .ok (e', ez + rs.count 0) ∧
      e' + (rs.count 0 : Nat) = e + registerSum rs := by
  induction rs generalizing e ez with
  | nil => exact ⟨e, rfl, by simp [registerSum]⟩
  | cons r rs ih =>
    have hr := hrs r mem_cons_self
    have htoNat : (UInt8.ofNat r).toNat = r := by
      rw [UInt8.toNat_ofNat', Nat.mod_eq_of_lt (by omega)]
    rw [map_cons, foldlM_cons, rawAdd]
    by_cases hz : r = 0
    · subst hz
      obtain ⟨e', hfold, hsum⟩ := ih (fun x hx => hrs x (mem_cons_of_mem _ hx)) e (ez + 1)
      refine ⟨e', ?_, ?_⟩
      · rw [if_neg (by decide), ok_bind, hfold, count_cons_self]
        congr 2
        omega
      rw [count_cons_self, registerSum, pe, if_pos rfl, Nat.cast_add, Nat.cast_one,
        ← Rat.add_assoc, hsum]
      ring
    obtain ⟨e', hfold, hsum⟩ := ih (fun x hx => hrs x (mem_cons_of_mem _ hx)) (e + pe r) ez
    have hne : UInt8.ofNat r ≠ 0 := fun h => hz (by
      have := congrArg UInt8.toNat h
      rwa [htoNat] at this)
    refine ⟨e', ?_, ?_⟩
    · rw [if_pos hne, htoNat, if_pos hr, ok_bind, hfold, count_cons_of_ne hz]
    rw [count_cons_of_ne hz, hsum, registerSum]
    ring

theorem foldlM_rawAdd_of_leNat (h : leNat bs = 0) (e : Rat) (ez : Nat) :
    bs.foldlM rawAdd (e, ez) = .ok (e, ez + bs.length) := by
  rw [eq_replicate_of_leNat h, length_replicate]
  generalize bs.length = n
  induction n generalizing ez with
  | zero => rfl
  | succ n ih =>
    rw [replicate_succ, foldlM_cons, rawAdd, if_neg (by decide), ok_bind, ih]
    congr 2
    omega

variable (hregs : regs.length = numRegisters) (hlt : ∀ r ∈ regs, r < 64)
include hregs hlt

theorem rawSumLoop_eq (hj : j + words = 2048) (e : Rat) (ez : Nat) :
    ∃ e', rawSumLoop (regs.map UInt8.ofNat) words (8 * j) e ez =
        .ok (e', ez + (regs.drop (8 * j)).count 0) ∧
      e' + ((regs.drop (8 * j)).count 0 : Nat) = e + registerSum (regs.drop (8 * j)) := by
  induction words generalizing j e ez with
  | zero =>
    have hend : regs.drop (8 * j) = [] := drop_eq_nil_of_le (by
      rw [hregs, numRegisters]
      omega)
    refine ⟨e, ?_, ?_⟩
    · rw [rawSumLoop, hend, count_nil, Nat.add_zero]
    · simp [hend, registerSum]
  | succ words ih =>
    have hlen : 8 * j + 8 ≤ (regs.map UInt8.ofNat).length := by
      rw [length_map, hregs, numRegisters]
      omega
    have hword : slice (regs.map UInt8.ofNat) (8 * j) 8 =
        ((regs.drop (8 * j)).take 8).map UInt8.ofNat := by
      rw [slice, map_take, map_drop]
    obtain ⟨e1, hfold, hsum⟩ := foldlM_rawAdd ((regs.drop (8 * j)).take 8)
      (fun r hr => hlt r (mem_of_mem_drop (mem_of_mem_take hr))) e ez
    have hsplit : regs.drop (8 * j) = (regs.drop (8 * j)).take 8 ++ regs.drop (8 * (j + 1)) := by
      rw [show 8 * (j + 1) = 8 * j + 8 by omega, ← drop_drop, take_append_drop]
    obtain ⟨e2, hrest, hsum'⟩ := ih (j := j + 1) (by omega) e1
      (ez + ((regs.drop (8 * j)).take 8).count 0)
    refine ⟨e2, ?_, ?_⟩
    · have hcount : ez + ((regs.drop (8 * j)).take 8).count 0 + (regs.drop (8 * (j + 1))).count 0 =
          ez + (regs.drop (8 * j)).count 0 := by
        conv_rhs => rw [hsplit, count_append]
        omega
      rw [hcount, show 8 * (j + 1) = 8 * j + 8 by omega] at hrest
      rw [rawSumLoop, load_eq hlen, ok_bind]
      split_ifs with hz
      · rw [hword] at hz
        rw [foldlM_rawAdd_of_leNat hz, ← hword, length_slice hlen] at hfold
        obtain ⟨rfl, hez⟩ : e = e1 ∧ ez + 8 = ez + ((regs.drop (8 * j)).take 8).count 0 := by
          simpa using hfold
        rw [hez]
        exact hrest
      rw [hword, hfold, ok_bind]
      exact hrest
    rw [hsplit, count_append, registerSum_append, Nat.cast_add]
    linear_combination hsum + hsum'

theorem hllRawSum_eq : hllRawSum (regs.map UInt8.ofNat) = .ok (registerSum regs, regs.count 0) := by
  obtain ⟨e, hloop, hsum⟩ : ∃ e', rawSumLoop (regs.map UInt8.ofNat) 2048 (8 * 0) 0 0 =
        .ok (e', 0 + (regs.drop (8 * 0)).count 0) ∧
      e' + ((regs.drop (8 * 0)).count 0 : Nat) = 0 + registerSum (regs.drop (8 * 0)) :=
    rawSumLoop_eq hregs hlt rfl 0 0
  rw [Nat.mul_zero, drop_zero, Nat.zero_add, Rat.zero_add] at *
  rw [hllRawSum, show numRegisters / 8 = 2048 from rfl, hloop, ok_bind]
  dsimp only
  rw [hsum]

end UfsRedis.Hll
