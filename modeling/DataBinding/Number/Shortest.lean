import DataBinding.Number.Binary

/-!
# The shortest digits that read back

A number is printed with the fewest significant decimal digits that still round to it, and with
the nearest of those.  All arithmetic is exact: the numbers that round to `m · 2^q` form an
interval, and a grid of `n` significant digits meets that interval only if one of the two grid
neighbours of `m · 2^q` lies in it.
-/

namespace DataBinding

/-- The number `digits · 10^exponent`. -/
structure Decimal where
  digits : Nat
  exponent : Int
deriving DecidableEq, Repr

namespace Decimal

/-- How many decimal digits `n` is written with. -/
def length (n : Nat) : Nat := if n < 10 then 1 else length (n / 10) + 1

/-- The exponent of the leading digit of `num / den`: the greatest `p` with `10^p ≤ num / den`. -/
def leadingExponent (num den : Nat) : Int :=
  if den ≤ num then (length (num / den) : Int) - 1
  else -(length ((den + num - 1) / num - 1) : Int)

/-- The interval of numbers that round to a given one, in units of `1 / unit`: the value and the
two ends, and whether the ends themselves round to it. -/
structure Rounding where
  low : Nat
  value : Nat
  high : Nat
  unit : Nat
  closed : Bool

namespace Rounding

/-- The interval around `m · 2^q`.  Below a power of two the neighbours are twice as dense, unless
that power is the least one; an even mantissa wins the ties at both ends. -/
def ofBinary (m : Nat) (q : Int) : Rounding :=
  let scale := Nat.pow 2 (q - 2).toNat
  let below := if m = Nat.pow 2 52 && decide (Binary.leastExponent < q) then 1 else 2
  ⟨(4 * m - below) * scale, 4 * m * scale, (4 * m + 2) * scale, Nat.pow 2 (2 - q).toNat,
    m % 2 == 0⟩

/-- Whether `num / den` rounds to the number. -/
def admits (r : Rounding) (num den : Nat) : Bool :=
  if r.closed then
    decide (r.low * den ≤ num * r.unit) && decide (num * r.unit ≤ r.high * den)
  else
    decide (r.low * den < num * r.unit) && decide (num * r.unit < r.high * den)

/-- The grid neighbours of the number among the multiples of `10^k`: of those that round to it,
the nearer one; the upper one on a tie. -/
def onGrid? (r : Rounding) (k : Int) : Option Decimal :=
  let num := Nat.pow 10 k.toNat
  let den := Nat.pow 10 (-k).toNat
  let lower := r.value * den / (r.unit * num)
  let fits := fun d : Nat => r.admits (d * num) den
  let below := r.value * den - lower * num * r.unit
  let above := (lower + 1) * num * r.unit - r.value * den
  match fits lower, fits (lower + 1) with
  | true, true => some ⟨if below < above then lower else lower + 1, k⟩
  | true, false => some ⟨lower, k⟩
  | false, true => some ⟨lower + 1, k⟩
  | false, false => none

/-- A number reached by `onGrid?` rounds to the number it was sought for. -/
theorem admits_of_onGrid? {r : Rounding} {k : Int} {d : Decimal} (h : r.onGrid? k = some d) :
    r.admits (d.digits * Nat.pow 10 k.toNat) (Nat.pow 10 (-k).toNat) = true ∧ d.exponent = k := by
  unfold onGrid? at h
  dsimp only at h
  split at h <;> simp only [Option.some.injEq, reduceCtorEq] at h <;> subst h
  · next hl hu => split <;> simp_all
  · next hl hu => simp_all
  · next hl hu => simp_all

end Rounding

/-- The shortest decimal that rounds to `m · 2^q`, for `m > 0`; seventeen digits always do.  A
number just below a power of ten may have that power as its one digit, hence the carry. -/
def shortest (m : Nat) (q : Int) : Decimal :=
  let r := Rounding.ofBinary m q
  let p := leadingExponent r.value r.unit
  match (List.range 17).findSome? fun n : Nat => r.onGrid? (p - (n : Int)) with
  | some d => if d.digits = 10 then ⟨1, d.exponent + 1⟩ else d
  | none => ⟨m, 0⟩

end Decimal

end DataBinding
