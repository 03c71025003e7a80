import DataBinding.Number.Shortest

/-!
# Numbers as text

The written form of a number.  Integers of less than `10^21` are written out in full, all else
with the shortest digits that read back; there is never an exponent.
-/

namespace DataBinding

/-- `n` copies of the digit zero. -/
def zeros (n : Nat) : String := String.ofList (List.replicate n '0')

namespace Decimal

/-- The positional text of a decimal: no exponent, no trailing point, a zero before a leading
point. -/
def text (d : Decimal) : String :=
  let digits := (Nat.repr d.digits).toList
  if 0 ≤ d.exponent then String.ofList digits ++ zeros d.exponent.toNat
  else
    let places := (-d.exponent).toNat
    if places < digits.length then
      String.ofList (digits.take (digits.length - places)) ++ "." ++
        String.ofList (digits.drop (digits.length - places))
    else "0." ++ zeros (places - digits.length) ++ String.ofList digits

end Decimal

namespace Number

/-- The bound below which integers are written with all their digits. -/
def integerTextBound : Nat := Nat.pow 10 21

/-- The text of a number: `NaN`, `Infinity`, both zeros as `0`, integers below the bound in full,
and else the shortest digits in positional notation. -/
def text (x : Float) : String :=
  match Binary.ofFloat? x with
  | none => if x.isNaN then "NaN" else if x < 0 then "-Infinity" else "Infinity"
  | some b =>
    let sign := if b.negative then "-" else ""
    if b.mantissa = 0 then "0"
    else if b.isIntegral && decide (b.magnitude < integerTextBound) then
      sign ++ Nat.repr b.magnitude
    else sign ++ (Decimal.shortest b.mantissa b.exponent).text

end Number

end DataBinding
