import Mathlib.Data.Nat.Bitwise

/-!
# Counting with reversed bits

A cursor that is advanced with its bits reversed goes through the numbers in the order that compares
the lowest bit first. In this order the numbers with the same `n` lowest bits are one block of
successive numbers, for every `n`.

* `place x`: the number of `x` in this order;
* `and_lowMask_eq_iff`: the same `n` lowest bits are the same block;
* `place_advance`: an advance goes to the start of the next block;
* `toNat_expand`: the step that counts the bits above the `n` lowest in the usual order.
-/

namespace Lib

open BitVec

variable {w n : Nat} {x y : BitVec w}

/-- The number of `x` when the lowest bit counts most. -/
def place (x : BitVec w) : Nat := x.reverse.toNat

/-- The `n` lowest bits. -/
def lowMask (w n : Nat) : BitVec w := BitVec.ofNat w (2 ^ n - 1)

/-- The cursor after the block of `x`: the other bits are set, and the reversed number is
incremented. -/
def advance (n : Nat) (x : BitVec w) : BitVec w :=
  ((x ||| ~~~ lowMask w n).reverse + 1).reverse

theorem place_lt : place x < 2 ^ w := x.reverse.isLt

theorem testBit_place (i : Nat) :
    (place x).testBit i = (decide (i < w) && x.getLsbD (w - 1 - i)) := by
  rw [place, testBit_toNat, getLsbD_reverse, getMsbD_eq_getLsbD]

theorem getLsbD_lowMask (i : Nat) :
    (lowMask w n).getLsbD i = (decide (i < w) && decide (i < n)) := by
  rw [lowMask, getLsbD_ofNat, Nat.testBit_two_pow_sub_one]

theorem place_inj (h : place x = place y) : x = y := by
  have hrev : x.reverse = y.reverse := eq_of_toNat_eq h
  rw [← reverse_reverse_eq (x := x), hrev, reverse_reverse_eq]

theorem place_zero : place (0 : BitVec w) = 0 := by
  refine Nat.eq_of_testBit_eq fun i => ?_
  simp [testBit_place]

theorem or_two_pow_sub_one (a k : Nat) : a ||| (2 ^ k - 1) = a / 2 ^ k * 2 ^ k + (2 ^ k - 1) := by
  have hpos := Nat.two_pow_pos k
  refine Nat.eq_of_testBit_eq fun i => ?_
  rw [mul_comm, Nat.testBit_two_pow_mul_add _ (by omega), Nat.testBit_or,
    Nat.testBit_two_pow_sub_one, Nat.testBit_div_two_pow]
  by_cases hi : i < k
  · simp [hi]
  rw [if_neg hi, show i - k + k = i by omega]
  simp [hi]

/-- The numbers with the same lowest bits are the numbers of one block. -/
theorem and_lowMask_eq_iff (hn : n ≤ w) : x &&& lowMask w n = y &&& lowMask w n ↔
    place x / 2 ^ (w - n) = place y / 2 ^ (w - n) := by
  constructor
  · intro h
    refine Nat.eq_of_testBit_eq fun i => ?_
    rw [Nat.testBit_div_two_pow, Nat.testBit_div_two_pow, testBit_place, testBit_place]
    by_cases hi : i + (w - n) < w
    · have hbit := congrArg (BitVec.getLsbD · (w - 1 - (i + (w - n)))) h
      simp only [getLsbD_and, getLsbD_lowMask] at hbit
      rw [decide_eq_true (show w - 1 - (i + (w - n)) < w by omega),
        decide_eq_true (show w - 1 - (i + (w - n)) < n by omega)] at hbit
      simpa [hi] using hbit
    · simp [hi]
  intro h
  refine eq_of_getLsbD_eq fun i hi => ?_
  rw [getLsbD_and, getLsbD_and, getLsbD_lowMask]
  by_cases hin : i < n
  · have hbit := congrArg (Nat.testBit · (n - 1 - i)) h
    simp only [Nat.testBit_div_two_pow, testBit_place] at hbit
    rw [decide_eq_true (show n - 1 - i + (w - n) < w by omega),
      show w - 1 - (n - 1 - i + (w - n)) = i by omega] at hbit
    simpa [hi, hin] using hbit
  · simp [hin]

theorem place_or_not_lowMask (hn : n ≤ w) : place (x ||| ~~~ lowMask w n) =
    place x / 2 ^ (w - n) * 2 ^ (w - n) + (2 ^ (w - n) - 1) := by
  rw [← or_two_pow_sub_one]
  refine Nat.eq_of_testBit_eq fun i => ?_
  rw [Nat.testBit_or, testBit_place, testBit_place, Nat.testBit_two_pow_sub_one,
    getLsbD_or, getLsbD_not, getLsbD_lowMask]
  by_cases hi : i < w
  · by_cases hlow : i < w - n
    · simp [hi, hlow, show w - 1 - i < w by omega, show ¬ w - 1 - i < n by omega]
    · simp [hi, hlow, show w - 1 - i < w by omega, show w - 1 - i < n by omega]
  · simp [hi, show ¬ i < w - n by omega]

/-- An advance goes to the start of the next block, or to 0 after the last one. -/
theorem place_advance (hn : n ≤ w) :
    place (advance n x) = (place x / 2 ^ (w - n) + 1) * 2 ^ (w - n) % 2 ^ w := by
  have hpos := Nat.two_pow_pos (w - n)
  have hone : (1 : BitVec w).toNat = 1 % 2 ^ w := toNat_ofNat 1 w
  have hplace : (x ||| ~~~ lowMask w n).reverse.toNat =
      place x / 2 ^ (w - n) * 2 ^ (w - n) + (2 ^ (w - n) - 1) := place_or_not_lowMask hn
  rw [place, advance, reverse_reverse_eq, toNat_add, hplace, hone,
    Nat.add_mod_mod, Nat.succ_mul]
  congr 1
  omega

theorem place_advance_cases (hn : n ≤ w) :
    place (advance n x) = (place x / 2 ^ (w - n) + 1) * 2 ^ (w - n) ∨
      advance n x = 0 ∧ 2 ^ w = (place x / 2 ^ (w - n) + 1) * 2 ^ (w - n) := by
  have hpow : 2 ^ w = 2 ^ n * 2 ^ (w - n) := by rw [← pow_add, Nat.add_sub_cancel' hn]
  have hlt : place x / 2 ^ (w - n) < 2 ^ n :=
    (Nat.div_lt_iff_lt_mul (Nat.two_pow_pos _)).mpr (hpow ▸ place_lt)
  have hadvance := place_advance (x := x) hn
  rcases Nat.lt_or_eq_of_le (Nat.succ_le_of_lt hlt) with hlt' | heq
  · left
    rw [hadvance, Nat.mod_eq_of_lt]
    rw [hpow]
    exact Nat.mul_lt_mul_of_pos_right hlt' (Nat.two_pow_pos _)
  right
  have hend : (place x / 2 ^ (w - n) + 1) * 2 ^ (w - n) = 2 ^ w := by
    rw [hpow]
    exact congrArg (· * 2 ^ (w - n)) heq
  rw [hend, Nat.mod_self] at hadvance
  exact ⟨place_inj (hadvance.trans place_zero.symm), hend.symm⟩

/-- The next number with the same `n` lowest bits. -/
def expand (n : Nat) (x : BitVec w) : BitVec w :=
  ((x ||| lowMask w n) + 1) &&& ~~~ lowMask w n ||| x &&& lowMask w n

theorem toNat_lowMask (hn : n ≤ w) : (lowMask w n).toNat = 2 ^ n - 1 := by
  have := Nat.two_pow_pos n
  have : 2 ^ n ≤ 2 ^ w := Nat.pow_le_pow_right (by omega) hn
  rw [lowMask, toNat_ofNat, Nat.mod_eq_of_lt (by omega)]

theorem toNat_and_lowMask (hn : n ≤ w) : (x &&& lowMask w n).toNat = x.toNat % 2 ^ n := by
  rw [toNat_and, toNat_lowMask hn, Nat.and_two_pow_sub_one_eq_mod]

theorem and_not_lowMask {a : Nat} (hx : x.toNat = 2 ^ n * a) : x &&& ~~~ lowMask w n = x := by
  refine eq_of_getLsbD_eq fun i hi => ?_
  have hbit : x.getLsbD i = (2 ^ n * a).testBit i := by rw [← hx, testBit_toNat]
  rw [getLsbD_and, getLsbD_not, getLsbD_lowMask, hbit, Nat.testBit_two_pow_mul]
  by_cases hin : i < n
  · simp [show ¬ i ≥ n by omega]
  · simp [hi, hin]

theorem toNat_expand (hn : n ≤ w) : (expand n x).toNat =
    2 ^ n * ((x.toNat / 2 ^ n + 1) % 2 ^ (w - n)) + x.toNat % 2 ^ n := by
  have hpos := Nat.two_pow_pos n
  have hpow : 2 ^ w = 2 ^ n * 2 ^ (w - n) := by rw [← pow_add, Nat.add_sub_cancel' hn]
  have hone : (1 : BitVec w).toNat = 1 % 2 ^ w := toNat_ofNat 1 w
  have hadd : ((x ||| lowMask w n) + 1).toNat = 2 ^ n * ((x.toNat / 2 ^ n + 1) % 2 ^ (w - n)) := by
    rw [toNat_add, toNat_or, toNat_lowMask hn, or_two_pow_sub_one, hone,
      Nat.add_mod_mod, show x.toNat / 2 ^ n * 2 ^ n + (2 ^ n - 1) + 1 =
        2 ^ n * (x.toNat / 2 ^ n + 1) by rw [Nat.mul_succ, mul_comm]; omega,
      hpow, Nat.mul_mod_mul_left]
  rw [expand, and_not_lowMask hadd, toNat_or, hadd, toNat_and_lowMask hn,
    Nat.two_pow_add_eq_or_of_lt (Nat.mod_lt _ hpos)]

theorem and_xor_lowMask_eq_zero_iff {m : Nat} (hnm : n ≤ m) (hm : m ≤ w) :
    x &&& (lowMask w n ^^^ lowMask w m) = 0 ↔ x.toNat / 2 ^ n % 2 ^ (m - n) = 0 := by
  constructor
  · intro h
    refine Nat.eq_of_testBit_eq fun i => ?_
    rw [Nat.testBit_mod_two_pow, Nat.testBit_div_two_pow, testBit_toNat, Nat.zero_testBit]
    by_cases hi : i < m - n
    · have hbit := congrArg (BitVec.getLsbD · (i + n)) h
      simp only [getLsbD_and, getLsbD_xor, getLsbD_lowMask] at hbit
      rw [decide_eq_true (show i + n < w by omega), decide_eq_true (show i + n < m by omega),
        decide_eq_false (show ¬ i + n < n by omega)] at hbit
      simpa [hi] using hbit
    · simp [hi]
  intro h
  refine eq_of_getLsbD_eq fun i hi => ?_
  rw [getLsbD_and, getLsbD_xor, getLsbD_lowMask, getLsbD_lowMask]
  by_cases hin : i < n
  · simp [hin, show i < m by omega]
  by_cases him : i < m
  · have hbit := congrArg (Nat.testBit · (i - n)) h
    simp only [Nat.testBit_mod_two_pow, Nat.testBit_div_two_pow, testBit_toNat,
      Nat.zero_testBit] at hbit
    rw [decide_eq_true (show i - n < m - n by omega), Bool.true_and,
      show i - n + n = i by omega] at hbit
    rw [hbit]
    simp
  · simp [hin, him]

theorem advance_congr (hn : n ≤ w) (h : x.toNat % 2 ^ n = y.toNat % 2 ^ n) :
    advance n x = advance n y := by
  have hand : x &&& lowMask w n = y &&& lowMask w n := eq_of_toNat_eq (by
    rw [toNat_and_lowMask hn, toNat_and_lowMask hn, h])
  refine place_inj ?_
  rw [place_advance hn, place_advance hn, (and_lowMask_eq_iff hn).mp hand]

end Lib
