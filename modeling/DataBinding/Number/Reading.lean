import DataBinding.Number.Text
import DataBinding.Text.Blank

/-!
# Reading numbers

Texts that denote numbers.  A decimal text is digits with at most one point and at least one
digit, then optionally `e`, a sign and digits; its value is the number nearest to the decimal it
spells.

## Main definitions

* `Numeral` is the decomposition of a decimal text, and `Numeral.ofChars?` its reader.
* `Number.ofDecimal` rounds `digits · 10^exponent` to a number.
* `Number.ofText` is the conversion of any text to a number: NaN where it spells none.
-/

namespace DataBinding

/-- The digit that a character stands for. -/
def digitOf? (c : Char) : Option Nat := if c.isDigit then some (c.toNat - '0'.toNat) else none

/-- The value of a run of decimal digits. -/
def digitsValue (cs : List Char) : Nat := cs.foldl (fun n c => 10 * n + (c.toNat - '0'.toNat)) 0

/-- The parts of a decimal text: the digits before and after the point, the exponent. -/
structure Numeral where
  whole : List Char
  fraction : List Char
  exponent : Int
deriving DecidableEq, Repr

namespace Numeral

/-- An exponent with its optional sign; at least one digit. -/
def exponentOfChars? : List Char → Option Int
  | '-' :: cs => if cs ≠ [] ∧ cs.all Char.isDigit then some (-(digitsValue cs : Int)) else none
  | '+' :: cs => if cs ≠ [] ∧ cs.all Char.isDigit then some (digitsValue cs) else none
  | cs => if cs ≠ [] ∧ cs.all Char.isDigit then some (digitsValue cs) else none

/-- An unsigned decimal text. -/
def ofChars? (cs : List Char) : Option Numeral :=
  let whole := cs.takeWhile Char.isDigit
  let rest := cs.dropWhile Char.isDigit
  let (fraction, rest) := match rest with
    | '.' :: after => (after.takeWhile Char.isDigit, after.dropWhile Char.isDigit)
    | _ => ([], rest)
  if whole = [] ∧ fraction = [] then none
  else match rest with
    | [] => some ⟨whole, fraction, 0⟩
    | c :: after =>
      if c = 'e' ∨ c = 'E' then (exponentOfChars? after).map (⟨whole, fraction, ·⟩) else none

/-- The digits without the point, and the power of ten that sets the point back. -/
def decimal (n : Numeral) : Decimal :=
  ⟨digitsValue (n.whole ++ n.fraction), n.exponent - n.fraction.length⟩

end Numeral

namespace Number

/-- The number nearest to `digits · 10^exponent`, halves to even.  Beyond the range of numbers the
answer is known without the power of ten. -/
def ofDecimal (d : Decimal) : Float :=
  if d.digits = 0 then 0.0
  else
    let top := d.exponent + Decimal.length d.digits
    if 310 < top then 1.0 / 0.0
    else if top < -330 then 0.0
    else Float.ofScientific d.digits (decide (d.exponent < 0)) d.exponent.natAbs

/-- A decimal text with an optional sign. -/
def ofSigned? : List Char → Option Float
  | '-' :: cs => (Numeral.ofChars? cs).map fun n => -(ofDecimal n.decimal)
  | '+' :: cs => (Numeral.ofChars? cs).map fun n => ofDecimal n.decimal
  | cs => (Numeral.ofChars? cs).map fun n => ofDecimal n.decimal

/-- The number that a text converts to.  Blanks at the ends are ignored, an empty text is zero,
`Infinity` may carry a sign, and what is neither that nor a decimal text is NaN. -/
def ofText (s : String) : Float :=
  let cs := Text.trimmed s.toList
  if cs = [] then 0.0
  else if cs = "Infinity".toList ∨ cs = "+Infinity".toList then 1.0 / 0.0
  else if cs = "-Infinity".toList then -1.0 / 0.0
  else (ofSigned? cs).getD (0.0 / 0.0)

end Number

end DataBinding
