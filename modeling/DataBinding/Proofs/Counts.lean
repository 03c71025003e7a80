import DataBinding.Value.Equality
import Mathlib

/-!
# Counts as numbers

Watchers take counts for values, and values are floating-point numbers.  Below `2 ^ 53` nothing is
lost by this: two counts are the same value just if they are the same count
(`Value.same_ofNat_iff`).

A number keeps a mantissa of 53 binary digits.  A positive count below `2 ^ 53` has an exact
mantissa of that length, with zeros behind its own digits (`counted`).  What has such a mantissa is
rounded to itself (`roundWithAccuracy_of_digits`) and survives to be packed into 64 bits
(`unpack_pack_of_digits`), so a count can be read off the number again.
-/

namespace DataBinding

open Float.Model (UnpackedFloat Format totalExponent)
open Float.Model.UnpackedFloat

variable {m n : ℕ} {e : ℤ}

/-! ## Rounding what needs none -/

lemma log2_mul_two_pow (hm : m ≠ 0) (k : ℕ) : (m * 2 ^ k).log2 = m.log2 + k := by
  induction k with
  | zero => rw [Nat.pow_zero, Nat.mul_one, Nat.add_zero]
  | succ k ih =>
    have hne : m * 2 ^ k ≠ 0 := Nat.mul_ne_zero hm (by positivity)
    rw [show m * 2 ^ (k + 1) = 2 * (m * 2 ^ k) by ring, Nat.log2_two_mul hne, ih, Nat.add_assoc]

lemma shiftRight_exact (m k : ℕ) :
    (ExtendedMantissa.mk (m * 2 ^ k) false false) >>> k = ⟨m, false, false⟩ := by
  change Nat.repeat _ _ _ = _
  induction k generalizing m with
  | zero => simp [Nat.repeat]
  | succ k ih =>
    rw [Nat.repeat, show m * 2 ^ (k + 1) = m * 2 * 2 ^ k by ring, ih]
    simp [ExtendedMantissa.shiftRightOne]

/-- A mantissa of 53 digits is where it belongs once the zeros behind it are dropped. -/
lemma targetExponent_of_digits (k : ℕ) (hm : m.log2 = 52) (he : -1074 ≤ e) :
    Format.binary64.targetExponent (totalExponent (m * 2 ^ k) (e - k)) = e := by
  have hne : m ≠ 0 := by
    rintro rfl
    cases hm
  simp only [Format.targetExponent, totalExponent, log2_mul_two_pow hne, hm, Format.minExponent,
    Format.mantissaBits]
  norm_num
  omega

lemma shiftToTargetExponent_of_digits (k : ℕ) (hm : m.log2 = 52) (he : -1074 ≤ e) :
    shiftToTargetExponent Format.binary64 (m * 2 ^ k) (e - k) .exact =
      (⟨m, false, false⟩, e) := by
  simp [shiftToTargetExponent, targetExponent_of_digits k hm he, shiftToExponent,
    ExtendedMantissa.ofMantissaAndAccuracy, shiftRight_exact]

/-- Rounding drops the zeros behind 53 digits and leaves the digits alone. -/
lemma roundWithAccuracy_of_digits {s : Sign} (k : ℕ) (hm : m.log2 = 52) (he : -1074 ≤ e)
    (hpos : 0 < m) :
    roundWithAccuracy Format.binary64 s (m * 2 ^ k) (e - k) .exact = .finite s m e hpos := by
  -- the rounded mantissa is shifted once more, which does nothing to it
  have hagain := shiftToTargetExponent_of_digits 0 hm he
  simp only [pow_zero, mul_one, Nat.cast_zero, sub_zero] at hagain
  simp [roundWithAccuracy, shiftToTargetExponent_of_digits k hm he,
    ExtendedMantissa.roundedMantissa, ExtendedMantissa.accuracy, Accuracy.roundToNearestEven,
    hagain, hpos.ne']

/-! ## Packing -/

/-- A number with 53 digits that is not too large is what it was once it has been packed. -/
lemma unpack_pack_of_digits (s : Sign) (hm : m.log2 = 52) (he : -1074 < e) (he' : e ≤ 971)
    (hpos : 0 < m) : unpack Format.binary64 (pack Format.binary64 (.finite s m e hpos)) =
      .finite s m e hpos := by
  have hlt : m < 2 ^ 53 := (Nat.log2_lt hpos.ne').1 (by omega)
  have hge : 2 ^ 52 ≤ m := hm ▸ Nat.log2_self_le hpos.ne'
  obtain ⟨b, rfl⟩ : ∃ b : ℕ, e = b - 1075 := ⟨(e + 1075).toNat, by omega⟩
  have hb : 1 < b ∧ b ≤ 2046 := by omega
  have hbiased : ((b : ℤ) - 1075 + Format.binary64.exponentBias +
      Format.binary64.mantissaBitsWithoutImplicit).toNat = b := by
    norm_num [Format.exponentBias]
    omega
  have hexponent : (BitVec.ofNat 11 b).toNat = b := by
    rw [BitVec.toNat_ofNat, Nat.mod_eq_of_lt (by omega)]
  have hne : ∀ c : BitVec 11, c.toNat ≠ b → BitVec.ofNat 11 b ≠ c := by
    rintro c hc rfl
    exact hc hexponent
  have hpack : pack Format.binary64 (.finite s m (b - 1075) hpos) =
      packComponents Format.binary64 s (BitVec.ofNat _ b) (BitVec.ofNat _ m) := by
    simp only [pack, hbiased, hm, Format.mantissaBits]
    rw [if_neg (by norm_num; omega), if_pos (by norm_num)]
  rw [hpack, unpack]
  simp only [unpackExponent_packComponents, unpackMantissa_packComponents,
    unpackSign_packComponents]
  rw [if_neg (hne _ (by norm_num; omega)), if_neg (hne _ (by norm_num; omega))]
  refine (UnpackedFloat.finite.injEq ..).mpr ⟨Sign.ofBitVec_toBitVec s, ?_, ?_⟩
  · -- the first digit, which is not stored, is put back
    rw [BitVec.toNat_append, ← Nat.shiftLeft_add_eq_or_of_lt (BitVec.isLt _)]
    simp only [BitVec.toNat_ofNat]
    norm_num
    omega
  · rw [hexponent]
    norm_num [Format.exponentBias]

/-! ## Counts -/

/-- The number that a count is: zero, or the digits of the count with so many zeros behind them
that there are 53. -/
def counted (n : ℕ) : UnpackedFloat :=
  if hn : 0 < n then .finite .positive (n * 2 ^ (52 - n.log2)) (n.log2 - 52) (by positivity)
  else .zero .positive

/-- No two counts are the same number. -/
lemma counted_injective : Function.Injective counted := by
  intro m n h
  unfold counted at h
  split_ifs at h with hm hn hn
  · injection h with _ hmantissa hexponent
    have hlog : m.log2 = n.log2 := by omega
    rw [hlog] at hmantissa
    exact Nat.eq_of_mul_eq_mul_right (by positivity) hmantissa
  · omega

section Bounded

variable (hpos : 0 < n) (hlt : n < 2 ^ 53)

include hpos hlt

lemma log2_le_of_lt : n.log2 ≤ 52 := Nat.le_of_lt_succ ((Nat.log2_lt hpos.ne').2 hlt)

lemma log2_digits : (n * 2 ^ (52 - n.log2)).log2 = 52 := by
  have hlog := log2_le_of_lt hpos hlt
  rw [log2_mul_two_pow hpos.ne']
  omega

/-- A count has 53 digits at most, so it is no more rounded than by zeros that are added. -/
lemma ofNat_eq_finite : UnpackedFloat.ofNat Format.binary64 n =
    .finite .positive (n * 2 ^ (52 - n.log2)) (n.log2 - 52) (by positivity) := by
  have hlog := log2_le_of_lt hpos hlt
  have htarget : Format.binary64.targetExponent (totalExponent n 0) = n.log2 - 52 := by
    simp only [Format.targetExponent, totalExponent, Format.minExponent, Format.mantissaBits]
    norm_num
    omega
  have hcompare : compare (n : ℤ) 0 = .gt := compare_gt_iff_gt.2 (by simpa using hpos)
  have hshift : (0 - ((n.log2 : ℤ) - 52)).toNat = 52 - n.log2 := by omega
  have hexponent : (0 : ℤ) - (52 - n.log2 : ℕ) = n.log2 - 52 := by omega
  simp only [UnpackedFloat.ofNat, ofInt, UnpackedFloat.normalize, hcompare, UnpackedFloat.round,
    Int.toNat_natCast, htarget, decreaseExponent, hshift, Nat.shiftLeft_eq, hexponent]
  simpa using roundWithAccuracy_of_digits 0 (log2_digits hpos hlt) (e := n.log2 - 52) (by omega)
    (by positivity)

/-- The number of a positive count is its digits: the multiplication by one that makes it of them
keeps them. -/
lemma unpack_ofNat_of_pos : (Float.ofNat n).toModel.unpack =
    .finite .positive (n * 2 ^ (52 - n.log2)) (n.log2 - 52) (by positivity) := by
  have hlog := log2_le_of_lt hpos hlt
  have hdigits := log2_digits hpos hlt
  have hpacked : unpack Format.binary64 (pack Format.binary64 (.finite .positive
      (n * 2 ^ (52 - n.log2)) (n.log2 - 52) (by positivity))) = _ :=
    unpack_pack_of_digits .positive hdigits (by omega) (by omega) (by positivity)
  have hone : (Float.ofBits 4607182418800017408).toModel.unpack =
      .finite .positive (2 ^ 52) (-52) (by decide) := by rfl
  have hcount : n.toUInt64.toFloat.toModel.unpack =
      .finite .positive (n * 2 ^ (52 - n.log2)) (n.log2 - 52) (by positivity) := by
    have htoNat : n.toUInt64.toNat = n := Nat.mod_eq_of_lt (by omega)
    change unpack Format.binary64 (pack Format.binary64
      (UnpackedFloat.ofNat _ n.toUInt64.toNat)) = _
    rw [htoNat, ofNat_eq_finite hpos hlt, hpacked]
  have hmul : Float.ofNat n = n.toUInt64.toFloat * Float.ofBits 4607182418800017408 :=
    dif_pos ⟨hlt, by decide⟩
  rw [hmul]
  change unpack Format.binary64 (pack Format.binary64 (UnpackedFloat.mul _
    n.toUInt64.toFloat.toModel.unpack (Float.ofBits 4607182418800017408).toModel.unpack)) = _
  rw [hcount, hone, UnpackedFloat.mul]
  exact (congrArg (fun x => unpack Format.binary64 (pack Format.binary64 x))
    (roundWithAccuracy_of_digits 52 hdigits (by omega) (by positivity))).trans hpacked

end Bounded

lemma unpack_ofNat (hlt : n < 2 ^ 53) : (Float.ofNat n).toModel.unpack = counted n := by
  unfold counted
  split_ifs with hpos
  · exact unpack_ofNat_of_pos hpos hlt
  · obtain rfl := Nat.eq_zero_of_not_pos hpos
    rfl

/-- Below `2 ^ 53` two counts are the same value just if they are the same count. -/
theorem Value.same_ofNat_iff (hm : m < 2 ^ 53) (hn : n < 2 ^ 53) :
    (Value.ofNat m).same (.ofNat n) = true ↔ m = n := by
  refine ⟨fun h => ?_, fun h => h ▸ same_self _⟩
  have hnan : (counted m).isNaN = false := by
    unfold counted
    split_ifs <;> rfl
  have hbeq : (counted m).beq (counted n) = true := by
    change ((Float.ofNat m).toModel.unpack.beq (Float.ofNat n).toModel.unpack ||
      ((Float.ofNat m).toModel.unpack.isNaN && (Float.ofNat n).toModel.unpack.isNaN)) = true at h
    rwa [unpack_ofNat hm, unpack_ofNat hn, hnan, Bool.false_and, Bool.or_false] at h
  obtain ⟨-, -, heq | ⟨-, hneg⟩ | ⟨hneg, -⟩⟩ := (beq_iff_ne_notANumber_and_eq ..).1 hbeq
  · exact counted_injective heq
  -- no count is a negative zero
  all_goals
    unfold counted at hneg
    split_ifs at hneg
    cases hneg

end DataBinding
