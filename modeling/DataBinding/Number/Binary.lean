/-!
# Finite numbers as binary fractions

A finite number is `±mantissa · 2^exponent` exactly, so whatever asks for its digits, its
fraction or a remainder is arithmetic on `Nat`.

## Main definitions

* `Binary.ofFloat?` reads the fraction off a number's bits, and `Binary.toFloat` writes it back.
* `Binary.isIntegral` and `Binary.magnitude` are the tests behind indices, lengths and the
  integer forms of numbers.
* `Number.remainder` is the remainder that takes the sign of the dividend.
-/

namespace DataBinding

/-- The number `±mantissa · 2^exponent`. -/
structure Binary where
  negative : Bool
  mantissa : Nat
  exponent : Int
deriving DecidableEq, Repr

namespace Binary

/-- The least exponent a number has, that of the subnormal ones. -/
def leastExponent : Int := -1074

/-- The exact fraction of a finite number; `none` for NaN and the infinities. -/
def ofFloat? (x : Float) : Option Binary :=
  let bits := x.toBits.toNat
  let negative := bits / Nat.pow 2 63 == 1
  let biased : Nat := bits / Nat.pow 2 52 % Nat.pow 2 11
  let fraction : Nat := bits % Nat.pow 2 52
  if biased = 2047 then none
  else if biased = 0 then some ⟨negative, fraction, leastExponent⟩
  else some ⟨negative, Nat.pow 2 52 + fraction, (biased : Int) - 1075⟩

/-- The number that `b` denotes.  It is exact when the odd part of the mantissa has at most 53
bits and the exponent is in range, as it is for every remainder of two numbers. -/
def toFloat (b : Binary) : Float :=
  if b.mantissa = 0 then (if b.negative then -0.0 else 0.0)
  else
    let shift := min (52 - (Nat.log2 b.mantissa : Int)) (b.exponent - leastExponent)
    let mantissa := if 0 ≤ shift then b.mantissa <<< shift.toNat else b.mantissa >>> (-shift).toNat
    let biased := if mantissa < Nat.pow 2 52 then 0 else (b.exponent - shift + 1075).toNat
    let sign := if b.negative then Nat.pow 2 63 else 0
    Float.ofBits (UInt64.ofNat (sign + biased * Nat.pow 2 52 + mantissa % Nat.pow 2 52))

/-- The absolute value, rounded down to an integer. -/
def magnitude (b : Binary) : Nat :=
  if 0 ≤ b.exponent then b.mantissa <<< b.exponent.toNat else b.mantissa >>> (-b.exponent).toNat

/-- Whether the number has no fraction. -/
def isIntegral (b : Binary) : Bool :=
  decide (0 ≤ b.exponent) || b.mantissa % Nat.pow 2 (-b.exponent).toNat == 0

/-- `isIntegral` says that rounding down loses nothing. -/
theorem isIntegral_iff (b : Binary) :
    b.isIntegral = true ↔
      0 ≤ b.exponent ∨ b.magnitude * Nat.pow 2 (-b.exponent).toNat = b.mantissa := by
  by_cases h : 0 ≤ b.exponent
  · simp [isIntegral, h]
  · simp only [isIntegral, h, magnitude, decide_false, Bool.false_or, beq_iff_eq, false_or,
      if_false, Nat.shiftRight_eq_div_pow, ← Nat.pow_eq]
    generalize hd : Nat.pow 2 (-b.exponent).toNat = d
    constructor
    · exact fun hm => Nat.div_mul_cancel (Nat.dvd_of_mod_eq_zero hm)
    · exact fun hm => hm ▸ Nat.mul_mod_left _ _

end Binary

namespace Number

/-- A finite number without a fraction. -/
def isIntegral (x : Float) : Bool :=
  match Binary.ofFloat? x with
  | some b => b.isIntegral
  | none => false

/-- `x` as a count: `none` if it is negative, infinite or NaN, or has a fraction.  Negative zero
counts as zero. -/
def toCount? (x : Float) : Option Nat :=
  match Binary.ofFloat? x with
  | some b =>
    if b.isIntegral && (!b.negative || b.mantissa == 0) then some b.magnitude else none
  | none => none

/-- `x` as an integer, if it is one. -/
def toInt? (x : Float) : Option Int :=
  match Binary.ofFloat? x with
  | some b =>
    if b.isIntegral then some (if b.negative then -b.magnitude else b.magnitude) else none
  | none => none

/-- The remainder of the division that rounds toward zero; it has the sign of the dividend and is
computed without rounding. -/
def remainder (x y : Float) : Float :=
  match Binary.ofFloat? x, Binary.ofFloat? y with
  | none, _ => 0.0 / 0.0
  | some _, none => if y.isNaN then y else x
  | some a, some b =>
    if b.mantissa = 0 then 0.0 / 0.0
    else
      let e := min a.exponent b.exponent
      let dividend := a.mantissa <<< (a.exponent - e).toNat
      let divisor := b.mantissa <<< (b.exponent - e).toNat
      Binary.toFloat ⟨a.negative, dividend % divisor, e⟩

end Number

end DataBinding
