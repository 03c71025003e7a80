import DataBinding.Json
import DataBinding.Proofs.Counts
import DataBinding.Proofs.Magnitudes

/-!
# Numbers that JSON keeps

A number is written to JSON as an integer if it is a small one, and as itself otherwise.  Integers
below `Json.integerBound` have few enough digits to be numbers exactly (`isInteger_ofInt`), so each
of them is written as itself (`Json.ofNumber_ofInt`).  The other way round a number is read as the
same one that was written (`Json.ofNumber_cases`), but not always as an equal one: negative zero is
written as zero.

That the same integer is the same number (`Number.IsInteger.same`) holds because the bits of a
number give its fraction in a form that is unique (`Binary.Canonical`).
-/

namespace DataBinding

open Float.Model (UnpackedFloat Format)
open Float.Model.UnpackedFloat

/-! ## Reading the bits -/

/-- The binary fraction of a number that is unpacked. -/
def Binary.ofUnpacked? : UnpackedFloat → Option Binary
  | .zero s => some ⟨s == .negative, 0, leastExponent⟩
  | .finite s m e _ => some ⟨s == .negative, m, e⟩
  | _ => none

section Parts

variable (v : BitVec Format.binary64.numBits)

lemma toNat_unpackSign : (unpackSign v).toNat = v.toNat / 2 ^ 63 := by
  have hlt : v.toNat < 2 ^ 64 := v.isLt
  rw [unpackSign_def, BitVec.extractLsb'_toNat, Nat.shiftRight_eq_div_pow]
  norm_num
  omega

lemma toNat_unpackExponent : (unpackExponent v).toNat = v.toNat / 2 ^ 52 % 2 ^ 11 := by
  rw [unpackExponent_def, BitVec.extractLsb'_toNat, Nat.shiftRight_eq_div_pow]

lemma toNat_unpackMantissa : (unpackMantissa v).toNat = v.toNat % 2 ^ 52 := by
  rw [unpackMantissa_def, BitVec.extractLsb'_toNat, Nat.shiftRight_eq_div_pow]
  norm_num

end Parts

namespace Binary

variable {b b' : Binary} {x y : Float}

lemma ofBitVec_eq_negative (s : BitVec 1) : (Sign.ofBitVec s == .negative) = (s.toNat == 1) := by
  decide +revert

lemma toNat_append_one (m : BitVec 52) : (1#1 ++ m).toNat = 2 ^ 52 + m.toNat := by
  rw [BitVec.toNat_append, ← Nat.shiftLeft_add_eq_or_of_lt m.isLt]
  rfl

lemma ofFloat?_eq (x : Float) : ofFloat? x = ofUnpacked? x.toModel.unpack := by
  let v : BitVec Format.binary64.numBits := x.toBits.toBitVec
  have hbits : x.toBits.toNat = v.toNat := rfl
  have hfull : (unpackExponent v).toNat = 2047 ↔ unpackExponent v = -1#_ := by
    rw [← BitVec.toNat_inj]
    rfl
  have hempty : (unpackExponent v).toNat = 0 ↔ unpackExponent v = 0#_ := by
    rw [← BitVec.toNat_inj]
    rfl
  have hzero : (unpackMantissa v).toNat = 0 ↔ unpackMantissa v = 0#_ := by
    rw [← BitVec.toNat_inj]
    rfl
  change _ = ofUnpacked? (unpack Format.binary64 v)
  simp only [ofFloat?, hbits, Nat.pow_eq, ← toNat_unpackSign, ← toNat_unpackExponent,
    ← toNat_unpackMantissa, hfull, hempty, unpack]
  split_ifs with hinf hmantissa hsub hmantissa
  · rfl
  · rfl
  · rw [ofUnpacked?, hzero.2 hmantissa, ofBitVec_eq_negative]
  · rw [ofUnpacked?, ofBitVec_eq_negative, hempty.2 hsub]
    rfl
  · rw [ofUnpacked?, ofBitVec_eq_negative, toNat_append_one]
    rfl

/-- The numbers with a fraction are the finite ones. -/
lemma ofFloat?_ne_none_iff : ofFloat? x ≠ none ↔ x.isFinite = true := by
  rw [ofFloat?_eq]
  change _ ↔ x.toModel.unpack.isFinite = true
  cases x.toModel.unpack <;> simp [ofUnpacked?, isFinite]

/-! ## One number for one fraction -/

/-- The mantissa has 53 digits at most, and fewer only where the exponent is the least one. -/
structure Canonical (b : Binary) : Prop where
  lt : b.mantissa < 2 ^ 53
  ge : leastExponent ≤ b.exponent
  full : b.exponent = leastExponent ∨ 2 ^ 52 ≤ b.mantissa

lemma canonical_of_ofFloat? (hx : ofFloat? x = some b) : b.Canonical := by
  have hfraction : x.toBits.toNat % 2 ^ 52 < 2 ^ 52 := Nat.mod_lt _ (by positivity)
  simp only [ofFloat?, Nat.pow_eq] at hx
  split_ifs at hx with hinf hsub
  · cases hx
    exact ⟨by dsimp only; omega, le_rfl, .inl rfl⟩
  · cases hx
    exact ⟨by dsimp only; omega, by simp only [leastExponent]; omega, .inr (by dsimp only; omega)⟩

lemma abs_value (b : Binary) : |b.value| = b.mantissa * 2 ^ b.exponent := by
  have hnonneg : (0 : ℚ) ≤ b.mantissa * 2 ^ b.exponent := by positivity
  rw [value, abs_mul, abs_of_nonneg hnonneg]
  split_ifs <;> simp

/-- Of two equal fractions neither has the smaller exponent. -/
lemma Canonical.exponent_le (hb : b.Canonical) (hb' : b'.Canonical)
    (heq : (b.mantissa : ℚ) * 2 ^ b.exponent = b'.mantissa * 2 ^ b'.exponent) :
    b'.exponent ≤ b.exponent := by
  by_contra hlt
  obtain ⟨k, hk⟩ : ∃ k : ℕ, b'.exponent = b.exponent + (k + 1 : ℕ) :=
    ⟨(b'.exponent - b.exponent - 1).toNat, by omega⟩
  have hmantissa : b.mantissa = b'.mantissa * 2 ^ (k + 1) := by
    rw [hk, zpow_add₀ two_ne_zero, mul_comm (2 ^ b.exponent : ℚ), ← mul_assoc, zpow_natCast] at heq
    exact_mod_cast mul_right_cancel₀ (zpow_ne_zero _ two_ne_zero) heq
  -- the greater exponent is not the least one, so its mantissa is full
  have hfull : 2 ^ 52 ≤ b'.mantissa := hb'.full.resolve_left (by have := hb.ge; omega)
  have hgrown : 2 ^ 52 * 2 ≤ b'.mantissa * 2 ^ (k + 1) :=
    Nat.mul_le_mul hfull (Nat.le_self_pow k.succ_ne_zero 2)
  have := hb.lt
  omega

/-- A fraction is that of one number only, but for the two zeros. -/
lemma Canonical.eq_of_value (hb : b.Canonical) (hb' : b'.Canonical) (heq : b.value = b'.value) :
    b = b' ∨ b.mantissa = 0 ∧ b'.mantissa = 0 := by
  have habs : (b.mantissa : ℚ) * 2 ^ b.exponent = b'.mantissa * 2 ^ b'.exponent := by
    rw [← abs_value, ← abs_value, heq]
  have hexponent : b.exponent = b'.exponent :=
    le_antisymm (hb'.exponent_le hb habs.symm) (hb.exponent_le hb' habs)
  have hmantissa : b.mantissa = b'.mantissa := by
    rw [hexponent] at habs
    exact_mod_cast mul_right_cancel₀ (zpow_ne_zero _ two_ne_zero) habs
  by_cases hzero : b.mantissa = 0
  · exact .inr ⟨hzero, hmantissa ▸ hzero⟩
  · have hpos : (0 : ℚ) < b'.mantissa * 2 ^ b'.exponent := by
      have : 0 < b'.mantissa := by omega
      positivity
    have hsign : b.negative = b'.negative := by
      rw [value, value, habs] at heq
      cases hn : b.negative <;> cases hn' : b'.negative <;> rw [hn, hn'] at heq <;>
        simp only [if_true, Bool.false_eq_true, if_false, one_mul, neg_mul] at heq ⊢ <;> linarith
    obtain ⟨s, m, e⟩ := b
    obtain ⟨s', m', e'⟩ := b'
    cases hsign
    cases hmantissa
    cases hexponent
    exact .inl rfl

lemma beq_of_ofUnpacked? {u u' : UnpackedFloat} (hu : ofUnpacked? u = some b)
    (hu' : ofUnpacked? u' = some b') (h : b = b' ∨ b.mantissa = 0 ∧ b'.mantissa = 0) :
    u.beq u' = true := by
  cases u with
  | infinity | notANumber => cases hu
  | zero s =>
    cases hu
    cases u' with
    | infinity | notANumber => cases hu'
    | zero s' => rfl
    | finite s' m' e' hpos' =>
      cases hu'
      obtain h | ⟨-, h⟩ := h
      · exact absurd (congrArg mantissa h).symm hpos'.ne'
      · exact absurd h hpos'.ne'
  | finite s m e hpos =>
    cases hu
    cases u' with
    | infinity | notANumber => cases hu'
    | zero s' =>
      cases hu'
      obtain h | ⟨h, -⟩ := h
      · exact absurd (congrArg mantissa h) hpos.ne'
      · exact absurd h hpos.ne'
    | finite s' m' e' hpos' =>
      cases hu'
      obtain h | ⟨h, -⟩ := h
      · injection h with hs hm he
        have hsign : s = s' := by cases s <;> cases s' <;> first | rfl | cases hs
        subst hsign hm he
        simpa [isNaN] using Value.beq_self_or_isNaN_unpacked (.finite s m e hpos)
      · exact absurd h hpos.ne'

end Binary

/-- Numbers that are the same integer are the same value. -/
lemma Number.IsInteger.same {x y : Float} {n : ℤ} (hx : IsInteger x n) (hy : IsInteger y n) :
    (Value.number x).same (.number y) = true := by
  obtain ⟨b, hb, hn⟩ := hx
  obtain ⟨b', hb', hn'⟩ := hy
  have heq := (Binary.canonical_of_ofFloat? hb).eq_of_value (Binary.canonical_of_ofFloat? hb')
    (hn.trans hn'.symm)
  rw [Binary.ofFloat?_eq] at hb hb'
  have hbeq : (x == y) = true := Binary.beq_of_ofUnpacked? hb hb' heq
  rw [Value.same, hbeq, Bool.true_or]

/-! ## Integers as numbers -/

/-- The digits of a count are written before zeros. -/
lemma digits_mul_two_zpow {n : ℕ} (hn : n.log2 ≤ 52) :
    ((n * 2 ^ (52 - n.log2) : ℕ) : ℚ) * 2 ^ ((n.log2 : ℤ) - 52) = n := by
  have hexponent : (n.log2 : ℤ) - 52 = -((52 - n.log2 : ℕ) : ℤ) := by omega
  rw [hexponent, Nat.cast_mul, Nat.cast_pow, Nat.cast_ofNat, ← zpow_natCast, mul_assoc,
    ← zpow_add₀ two_ne_zero, add_neg_cancel, zpow_zero, mul_one]

lemma isInteger_of_digits {x : Float} {s : Sign} {n : ℕ} (hpos : 0 < n) (hlt : n < 2 ^ 53)
    (hx : x.toModel.unpack =
      .finite s (n * 2 ^ (52 - n.log2)) (n.log2 - 52) (by positivity)) :
    Number.IsInteger x (s.apply n) := by
  refine ⟨_, by rw [Binary.ofFloat?_eq, hx]; rfl, ?_⟩
  rw [Binary.value, digits_mul_two_zpow (log2_le_of_lt hpos hlt)]
  cases s <;> simp [Sign.apply]

/-- An integer of less than 54 digits is a number. -/
lemma isInteger_ofInt {n : ℤ} (hlt : n.natAbs < 2 ^ 53) : Number.IsInteger (Float.ofInt n) n := by
  cases n with
  | ofNat n =>
    obtain rfl | hpos := Nat.eq_zero_or_pos n
    · exact ⟨⟨false, 0, Binary.leastExponent⟩, by rfl, by simp [Binary.value]⟩
    · exact isInteger_of_digits (s := .positive) hpos hlt (unpack_ofNat_of_pos hpos hlt)
  | negSucc n =>
    have hdigits := log2_digits n.succ_pos hlt
    have hlog := log2_le_of_lt n.succ_pos hlt
    refine isInteger_of_digits (s := .negative) n.succ_pos hlt ?_
    change unpack Format.binary64
      (pack Format.binary64 (Float.ofNat (n + 1)).toModel.unpack.neg) = _
    rw [unpack_ofNat_of_pos n.succ_pos hlt]
    exact unpack_pack_of_digits .negative hdigits (by omega) (by omega) (by positivity)

/-! ## The numbers of JSON -/

namespace Json

open Number (IsInteger)

variable {x : Float} {n : ℤ}

lemma integerBound_lt : integerBound < 2 ^ 53 := by decide

lemma ofNumber_of_isInteger (hx : IsInteger x n) :
    ofNumber x = if n.natAbs < integerBound then .integer n else .double x := by
  obtain ⟨b, hb, hn⟩ := id hx
  have hmagnitude : b.magnitude = n.natAbs := by
    have habs := Binary.abs_value b
    rw [hn, ← Binary.magnitude_of_isIntegral (Binary.isIntegral_of_value hn), ← Int.cast_abs,
      Int.abs_eq_natAbs] at habs
    exact_mod_cast habs.symm
  rw [ofNumber, hb, Number.toInt?_eq_some_iff.2 hx]
  simp only [hmagnitude]

lemma ofNumber_of_not_isInteger (hfinite : x.isFinite = true)
    (hx : ∀ n, ¬ IsInteger x n) : ofNumber x = .double x := by
  obtain ⟨b, hb⟩ := Option.ne_none_iff_exists'.1 (Binary.ofFloat?_ne_none_iff.2 hfinite)
  have hnone : Number.toInt? x = none :=
    Option.eq_none_iff_forall_not_mem.2 fun n hn => hx n (Number.toInt?_eq_some_iff.1 hn)
  rw [ofNumber, hb, hnone]

/-- A small integer is written as itself. -/
lemma ofNumber_ofInt (hn : n.natAbs < integerBound) : ofNumber (Float.ofInt n) = .integer n := by
  rw [ofNumber_of_isInteger (isInteger_ofInt (hn.trans integerBound_lt)), if_pos hn]

/-- A finite number is written as itself, or as a small integer that is read as the same number. -/
lemma ofNumber_cases (hfinite : x.isFinite = true) : ofNumber x = .double x ∨
    ∃ n, ofNumber x = .integer n ∧ (Value.number x).same (.number (Float.ofInt n)) = true := by
  by_cases hx : ∃ n, IsInteger x n
  · obtain ⟨n, hn⟩ := hx
    rw [ofNumber_of_isInteger hn]
    by_cases hlt : n.natAbs < integerBound
    · exact .inr ⟨n, if_pos hlt, hn.same (isInteger_ofInt (hlt.trans integerBound_lt))⟩
    · exact .inl (if_neg hlt)
  · exact .inl (ofNumber_of_not_isInteger hfinite (not_exists.1 hx))

end Json

end DataBinding
