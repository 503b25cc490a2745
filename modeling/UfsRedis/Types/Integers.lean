import UfsRedis.Keyspace.GetKeys
import UfsRedis.Protocol.Fragments
import UfsRedis.Types.Strings

/-!
# Integers as text

`ll2string` writes two digits at a time, from the end that `digits10` computes first.
`integer_text_exact` is about it and about the `string2ll` of `UfsRedis.Protocol.Multibulk`.
-/

namespace UfsRedis.Integers

open List Strings Lib
open Nat (toDigits digitChar)

def digits10 (v : Nat) : Nat :=
  if v < 10 then 1
  else if v < 100 then 2
  else if v < 1000 then 3
  else if v < 10 ^ 12 then
    if v < 10 ^ 8 then
      if v < 10 ^ 6 then
        if v < 10 ^ 4 then 4 else 5 + if v ≥ 10 ^ 5 then 1 else 0
      else 7 + if v ≥ 10 ^ 7 then 1 else 0
    else if v < 10 ^ 10 then 9 + if v ≥ 10 ^ 9 then 1 else 0
    else 11 + if v ≥ 10 ^ 11 then 1 else 0
  else 12 + digits10 (v / 10 ^ 12)

/-- The absolute value of a `long long`. -/
def magnitude (v : Int) : Except Fault Nat :=
  if v < 0 then if v ≠ -2 ^ 63 then Int.toNat <$> longLong (-v) else .ok (2 ^ 63 - 1 + 1)
  else .ok v.toNat

def sdigits10 (v : Int) : Except Fault Nat := do
  let uv ← magnitude v
  .ok (if v < 0 then digits10 uv + 1 else digits10 uv)

def digits : Sds :=
  "0001020304050607080910111213141516171819".toList ++
  "2021222324252627282930313233343536373839".toList ++
  "4041424344454647484950515253545556575859".toList ++
  "6061626364656667686970717273747576777879".toList ++
  "8081828384858687888990919293949596979899".toList

/-- `dst[i] = ch`. -/
def put (dst : Sds) (i : Nat) (ch : Char) : Except Fault Sds :=
  if i < dst.length then .ok (overwrite dst i [ch]) else .error .bufferOverflow

/-- The writes of two digits, that end at `next`. -/
def putPair (dst : Sds) (next value : Nat) : Except Fault Sds := do
  let dst ← put dst next (digits.getD (value * 2 + 1) '\x00')
  if next = 0 then .error .bufferOverflow else put dst (next - 1) (digits.getD (value * 2) '\x00')

/-- The loop of `ll2string` and the last one or two digits. -/
def putDigits (dst : Sds) (next value : Nat) : Except Fault Sds :=
  if value ≥ 100 then do
    let dst ← putPair dst next (value % 100)
    if next < 2 then .error .intOverflow else putDigits dst (next - 2) (value / 100)
  else if value < 10 then put dst next (Char.ofNat ('0'.toNat + value))
  else putPair dst next value

/-- `ll2string`: the buffer and the returned length. -/
def ll2string (dst : Sds) (svalue : Int) : Except Fault (Sds × Nat) := do
  let value ← magnitude svalue
  let length := digits10 value + if svalue < 0 then 1 else 0
  if length ≥ dst.length then .ok (dst, 0)
  else
    let dst ← put dst length '\x00'
    let dst ← putDigits dst (length - 1) value
    let dst ← if svalue < 0 then put dst 0 '-' else .ok dst
    .ok (dst, length)

/-! ## Lengths -/

variable {k v off next : Nat} {dst s : Sds} {ch : Char}

theorem length_toDigits_div (h : 10 ^ k ≤ v) :
    (toDigits 10 v).length = k + (toDigits 10 (v / 10 ^ k)).length := by
  induction k with
  | zero => simp
  | succ k ih =>
    have hdiv : 10 ≤ v / 10 ^ k := (Nat.le_div_iff_mul_le (by positivity)).mpr
      (by rwa [← pow_succ'])
    rw [ih (by rw [pow_succ] at h; omega), Nat.toDigits_of_base_le (by decide) hdiv, length_append,
      Nat.div_div_eq_div_mul, ← pow_succ, length_singleton]
    omega

theorem length_toDigits (h : 10 ^ k ≤ v) (hlt : v < 10 ^ (k + 1)) :
    k + 1 = (toDigits 10 v).length := by
  rw [length_toDigits_div h, Nat.toDigits_of_lt_base, length_singleton]
  exact Nat.div_lt_of_lt_mul (by rwa [← pow_succ])

theorem digits10_eq (v : Nat) : digits10 v = (toDigits 10 v).length := by
  induction v using Nat.strong_induction_on with
  | _ v ih =>
    rw [digits10]
    split_ifs
    · rw [Nat.toDigits_of_lt_base (by assumption), length_singleton]
    all_goals try exact length_toDigits (by omega) (by omega)
    rw [ih _ (by omega), @length_toDigits_div 12 v (by omega)]

theorem magnitude_eq {v : Int} (h : IsLongLong v) : magnitude v = .ok v.natAbs := by
  unfold IsLongLong at h
  unfold magnitude
  split_ifs
  · rw [longLong_eq ⟨by omega, by omega⟩]
    exact congrArg Except.ok (by omega)
  all_goals exact congrArg Except.ok (by omega)

/-! ## Writing -/

theorem put_eq (h : off < dst.length) : put dst off ch = .ok (overwrite dst off [ch]) := if_pos h

theorem digits_eq : ∀ k < 100, digits.getD (k * 2) '\x00' = digitChar (k / 10) ∧
    digits.getD (k * 2 + 1) '\x00' = digitChar (k % 10) := by
  decide +kernel

theorem putPair_eq (hk : k < 100) (h : off + 1 < dst.length) : putPair dst (off + 1) k =
    .ok (overwrite dst off [digitChar (k / 10), digitChar (k % 10)]) := by
  obtain ⟨h1, h2⟩ := digits_eq k hk
  rw [putPair, h1, h2, put_eq h, ok_bind, if_neg (by omega), Nat.add_sub_cancel,
    put_eq (by rw [length_overwrite h]; omega)]
  exact congrArg Except.ok (overwrite_overwrite [_] [_] h.le)

theorem digitChar_eq : ∀ k < 10, Char.ofNat ('0'.toNat + k) = digitChar k := by
  decide

theorem putDigits_eq (hnext : next + 1 = off + (toDigits 10 v).length) (h : next < dst.length) :
    putDigits dst next v = .ok (overwrite dst off (toDigits 10 v)) := by
  induction v using Nat.strong_induction_on generalizing dst next with
  | _ v ih =>
    rw [putDigits]
    by_cases h10 : v < 10
    · rw [Nat.toDigits_of_lt_base h10] at hnext ⊢
      cases hnext
      rw [if_neg (by omega), if_pos h10, digitChar_eq v h10, put_eq h]
    have hten := @Nat.toDigits_of_base_le 10 v (by decide) (by omega)
    by_cases h100 : v ≥ 100
    · have h1 : v / 10 % 10 = v % 100 / 10 := by omega
      have h2 : v % 10 = v % 100 % 10 := by omega
      rw [@Nat.toDigits_of_base_le 10 (v / 10) (by decide) (by omega), Nat.div_div_eq_div_mul,
        append_assoc, h1, h2] at hten
      have hpos := @Nat.length_toDigits_pos 10 (v / 100)
      rw [hten, length_append] at hnext
      obtain rfl : next = off + (toDigits 10 (v / 100)).length + 1 := Nat.succ.inj hnext
      rw [if_pos h100, putPair_eq (Nat.mod_lt v (by decide)) h, ok_bind, if_neg (by omega), hten,
        ih (v / 100) (by omega) (by omega) (by rw [length_overwrite h]; omega)]
      exact congrArg Except.ok (overwrite_overwrite _ [_, _] (by omega))
    rw [@Nat.toDigits_of_lt_base 10 (v / 10) (by omega)] at hten
    rw [hten] at hnext ⊢
    obtain rfl : next = off + 1 := Nat.succ.inj hnext
    rw [if_neg h100, if_neg h10, putPair_eq (by omega) h]
    rfl

/-! ## Reading -/

theorem digitChar_isDigit (h : ch.isDigit) :
    ch.toNat - '0'.toNat < 10 ∧ digitChar (ch.toNat - '0'.toNat) = ch := by
  rw [Char.isDigit, Bool.and_eq_true, decide_eq_true_eq, decide_eq_true_eq] at h
  have h1 : '0'.toNat ≤ ch.toNat := UInt32.le_iff_toNat_le.mp h.1
  have h2 : ch.toNat ≤ '9'.toNat := UInt32.le_iff_toNat_le.mp h.2
  have hlt : ch.toNat - '0'.toNat < 10 := by
    have h9 : '9'.toNat = '0'.toNat + 9 := rfl
    omega
  rw [← digitChar_eq _ hlt, Nat.add_sub_cancel' h1, Char.ofNat_toNat]
  exact ⟨hlt, rfl⟩

theorem toDigits_append (hv : 0 < v) (hs : ∀ c ∈ s, c.isDigit) :
    toDigits 10 v ++ s = toDigits 10 (Nat.ofDigitChars 10 s v) := by
  induction s generalizing v with
  | nil => exact append_nil _
  | cons c s ih =>
    obtain ⟨hlt, hc⟩ := digitChar_isDigit (hs c mem_cons_self)
    rw [Nat.ofDigitChars_cons, ← ih (by omega) fun x hx => hs x (mem_cons_of_mem c hx),
      ← Nat.toDigits_append_toDigits (by decide) hv hlt, Nat.toDigits_of_lt_base hlt, hc,
      append_assoc]
    rfl

theorem string2ull_eq (h : string2ull s = some v) : 0 < v ∧ s = UfsRedis.ll2string v := by
  obtain _ | ⟨c, s⟩ := s
  · cases h
  rw [string2ull] at h
  split at h
  · next hc =>
    obtain ⟨hs, hv⟩ := GetKeys.digits_of_string2ll h
    obtain ⟨hlt, hdigit⟩ := digitChar_isDigit hc.1
    have hpos : 0 < c.toNat - '0'.toNat := by
      refine Nat.pos_of_ne_zero fun h0 => hc.2 ?_
      rw [← hdigit, h0]
      rfl
    have hle := le_ofDigitChars s (c.toNat - '0'.toNat)
    have happ := toDigits_append hpos hs
    rw [Nat.toDigits_of_lt_base hlt, hdigit, ← hv] at happ
    exact ⟨by omega, happ⟩
  · cases h

theorem ofLongLong_eq (v : Int) :
    ofLongLong v = if v < 0 then '-' :: toDigits 10 v.natAbs else toDigits 10 v.natAbs := by
  unfold ofLongLong
  split_ifs
  · rw [show (-v).toNat = v.natAbs by omega]
    rfl
  rw [show v.toNat = v.natAbs by omega]
  rfl

theorem string2ll_eq_some {v : Int} : string2ll s = some v ↔ IsLongLong v ∧ s = ofLongLong v := by
  constructor
  · intro h
    refine ⟨isLongLong_of_string2ll h, ?_⟩
    unfold string2ll at h
    split at h
    · next hs =>
      cases h
      exact hs
    split at h
    · next hs =>
      obtain ⟨w, hw, h⟩ := Option.bind_eq_some_iff.mp h
      obtain ⟨hpos, htail⟩ := string2ull_eq hw
      split at h <;> cases h
      rw [ofLongLong, if_pos (by omega), neg_neg, Int.toNat_natCast, ← htail]
      exact (cons_head?_tail hs).symm
    obtain ⟨w, hw, h⟩ := Option.bind_eq_some_iff.mp h
    split at h <;> cases h
    exact (string2ull_eq hw).2
  rintro ⟨hv, rfl⟩
  unfold IsLongLong at hv
  unfold ofLongLong
  split
  · have hull := string2ull_ll2string (n := (-v).toNat) (by omega) (by omega)
    rw [string2ll, if_neg (by simp), if_pos head?_cons, tail_cons, hull]
    show (if (-v).toNat > 2 ^ 63 then none else some (-((-v).toNat : Int))) = some v
    rw [if_neg (by omega), Int.toNat_of_nonneg (by omega), neg_neg]
  rw [string2ll_ll2string (by omega)]
  exact congrArg some (by omega)

end UfsRedis.Integers
