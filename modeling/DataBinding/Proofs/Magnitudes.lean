import DataBinding.Number.Binary
import Mathlib.Algebra.Order.Field.Rat
import Mathlib.Algebra.Order.Field.Power
import Mathlib.Tactic.NormNum
import Mathlib.Tactic.Positivity

/-!
# Integers among the numbers

A finite number is a fraction whose denominator is a power of two (`Binary.value`).  The tests for
integers go by its digits and are right about that fraction: a number is taken for an integer just
if it is one, and for which (`Number.toInt?_eq_some_iff`), and for a count just if it is one
(`Number.toCount?_eq_some_iff`).  Both zeros are zero.
-/

namespace DataBinding

namespace Binary

variable {b : Binary}

/-- The number as a fraction. -/
def value (b : Binary) : ℚ := (if b.negative then -1 else 1) * (b.mantissa * 2 ^ b.exponent)

lemma two_zpow_of_nonneg {e : ℤ} (he : 0 ≤ e) : (2 : ℚ) ^ e = 2 ^ e.toNat := by
  rw [← zpow_natCast, Int.toNat_of_nonneg he]

lemma two_zpow_of_neg {e : ℤ} (he : ¬ 0 ≤ e) : (2 : ℚ) ^ e * 2 ^ (-e).toNat = 1 := by
  rw [← zpow_natCast, Int.toNat_of_nonneg (by omega), ← zpow_add₀ two_ne_zero, add_neg_cancel,
    zpow_zero]

/-- An integer is not rounded. -/
lemma magnitude_of_isIntegral (hb : b.isIntegral = true) :
    (b.magnitude : ℚ) = b.mantissa * 2 ^ b.exponent := by
  by_cases he : 0 ≤ b.exponent
  · rw [magnitude, if_pos he, Nat.shiftLeft_eq, two_zpow_of_nonneg he]
    push_cast
    rfl
  · have hexact := (isIntegral_iff b).1 hb |>.resolve_left he
    have hone := two_zpow_of_neg he
    have hcast : (b.mantissa : ℚ) = b.magnitude * 2 ^ (-b.exponent).toNat := by
      rw [← hexact, Nat.pow_eq]
      push_cast
      rfl
    rw [hcast, mul_assoc, mul_comm (2 ^ (-b.exponent).toNat : ℚ), hone, mul_one]

lemma magnitude_eq_zero_iff (hb : b.isIntegral = true) : b.magnitude = 0 ↔ b.mantissa = 0 := by
  rw [← Nat.cast_inj (R := ℚ), magnitude_of_isIntegral hb, Nat.cast_zero, mul_eq_zero,
    or_iff_left (zpow_ne_zero _ two_ne_zero), Nat.cast_eq_zero]

/-- The fraction is an integer just if the test says so. -/
lemma isIntegral_of_value {n : ℤ} (hb : b.value = n) : b.isIntegral = true := by
  rw [isIntegral_iff]
  by_cases he : 0 ≤ b.exponent
  · exact .inl he
  -- the mantissa is a multiple of the denominator
  have hone := two_zpow_of_neg he
  have habs : (b.mantissa : ℚ) * 2 ^ b.exponent = n.natAbs := by
    have hnonneg : (0 : ℚ) ≤ b.mantissa * 2 ^ b.exponent := by positivity
    rw [value] at hb
    rw [Nat.cast_natAbs, Int.cast_abs, ← hb, abs_mul, abs_of_nonneg hnonneg]
    split_ifs <;> simp
  have hcast : (b.mantissa : ℚ) = (n.natAbs * 2 ^ (-b.exponent).toNat : ℕ) := by
    rw [Nat.cast_mul, ← habs, Nat.cast_pow, Nat.cast_ofNat, mul_assoc, hone, mul_one]
  have hmantissa : b.mantissa = n.natAbs * 2 ^ (-b.exponent).toNat := by exact_mod_cast hcast
  refine .inr ?_
  rw [magnitude, if_neg he, Nat.shiftRight_eq_div_pow, hmantissa]
  change n.natAbs * 2 ^ (-b.exponent).toNat / 2 ^ (-b.exponent).toNat * 2 ^ (-b.exponent).toNat = _
  rw [Nat.mul_div_cancel _ (by positivity)]

lemma value_of_isIntegral (hb : b.isIntegral = true) :
    b.value = (if b.negative then -(b.magnitude : ℤ) else b.magnitude : ℤ) := by
  rw [value, ← magnitude_of_isIntegral hb]
  split_ifs <;> simp

end Binary

namespace Number

variable {x : Float}

/-- The number is finite, and as a fraction it is `n`. -/
def IsInteger (x : Float) (n : ℤ) : Prop := ∃ b, Binary.ofFloat? x = some b ∧ b.value = n

/-- A number is taken for an integer just if it is that integer. -/
theorem toInt?_eq_some_iff {n : ℤ} : toInt? x = some n ↔ IsInteger x n := by
  unfold toInt? IsInteger
  cases hx : Binary.ofFloat? x with
  | none => simp
  | some b =>
    simp only [Option.ite_none_right_eq_some, Option.some_inj, exists_eq_left']
    constructor
    · rintro ⟨hb, rfl⟩
      exact Binary.value_of_isIntegral hb
    · intro hb
      have hintegral := Binary.isIntegral_of_value hb
      rw [Binary.value_of_isIntegral hintegral] at hb
      exact ⟨hintegral, by exact_mod_cast hb⟩

/-- The counts are the integers that are not below zero. -/
lemma toCount?_eq_some_iff_toInt? {n : ℕ} : toCount? x = some n ↔ toInt? x = some (n : ℤ) := by
  unfold toCount? toInt?
  cases Binary.ofFloat? x with
  | none => simp
  | some b =>
    simp only [Option.ite_none_right_eq_some, Option.some_inj, Bool.and_eq_true, Bool.or_eq_true,
      Bool.not_eq_true', beq_iff_eq, and_assoc]
    refine and_congr_right fun hb => ?_
    have hzero := Binary.magnitude_eq_zero_iff hb
    cases hsign : b.negative with
    | false => simp
    | true =>
      simp only [Bool.true_eq_false, false_or, if_true]
      omega

/-- A number is taken for a count just if it is that count. -/
theorem toCount?_eq_some_iff {n : ℕ} : toCount? x = some n ↔ IsInteger x n := by
  rw [toCount?_eq_some_iff_toInt?, toInt?_eq_some_iff]

end Number

end DataBinding
