import DataBinding.Expr
import DataBinding.Value.Equality

/-!
# Operators on values

What the unary and binary operators yield.  Addition joins texts when an operand is a text or a
container and adds numbers otherwise; undefined counts as zero in sums and differences and as no
number elsewhere; texts are ordered by code points.  `none` where a conversion has no end.
-/

namespace DataBinding

namespace Value

/-- The operands that addition joins as texts. -/
def joinsAsText : Value → Bool
  | .string _ | .array _ | .object _ | .function _ => true
  | _ => false

/-- Undefined as zero. -/
def orZero (v : Value) : Value := v.ifDefined (.number 0.0)

end Value

namespace Heap

/-- The value of an arithmetic operator on the numbers of two operands. -/
def arithmetic (h : Heap) (f : Float → Float → Float) (v w : Value) : Option Value := do
  return .number (f (← h.toNumber v) (← h.toNumber w))

/-- The sum of two operands, or their texts joined. -/
def sum (h : Heap) (v w : Value) : Option Value :=
  let v := v.orZero
  let w := w.orZero
  if v.joinsAsText || w.joinsAsText then do return .string ((← h.text? v) ++ (← h.text? w))
  else h.arithmetic (· + ·) v w

/-- A comparison: of two texts by code points, else of numbers. -/
def comparison (h : Heap) (onText : String → String → Bool) (onNumber : Float → Float → Bool) :
    Value → Value → Option Value
  | .string s, .string t => some (.bool (onText s t))
  | v, w => do return .bool (onNumber (← h.toNumber v) (← h.toNumber w))

/-- The value of a unary operator. -/
def unary (h : Heap) (op : UnaryOp) (v : Value) : Option Value :=
  match op with
  | .plus => (h.toNumber v.orZero).map .number
  | .minus => (h.toNumber v.orZero).map fun x => .number (-x)
  | .not => some (.bool !v.truthy)

/-- The value of a binary operator. -/
def binary (h : Heap) (op : BinaryOp) (v w : Value) : Option Value :=
  match op with
  | .add => h.sum v w
  | .sub => h.arithmetic (· - ·) v.orZero w.orZero
  | .mul => h.arithmetic (· * ·) v w
  | .div => h.arithmetic (· / ·) v w
  | .rem => h.arithmetic Number.remainder v w
  | .eq => (h.looseEq? v w).map .bool
  | .notEq => (h.looseEq? v w).map fun b => .bool !b
  | .strictEq => some (.bool (v.strictEq w))
  | .strictNotEq => some (.bool !(v.strictEq w))
  | .lt => h.comparison (fun s t => decide (s < t)) (fun x y => decide (x < y)) v w
  | .gt => h.comparison (fun s t => decide (t < s)) (fun x y => decide (y < x)) v w
  | .ltEq => h.comparison (fun s t => !decide (t < s)) (fun x y => decide (x ≤ y)) v w
  | .gtEq => h.comparison (fun s t => !decide (s < t)) (fun x y => decide (y ≤ x)) v w

end Heap

end DataBinding
