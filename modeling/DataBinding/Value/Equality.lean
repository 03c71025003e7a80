import DataBinding.Value.Text

/-!
# Equalities

Four relations on values.  `same` is the identity by which watchers notice a change, `strictEq`
and `looseEq` are the two comparison operators of expressions, and `deepEq?` compares containers
by their contents.

Only `deepEq?` and the textual cases of `looseEq?` follow references; both answer `none` where
that has no end.
-/

namespace DataBinding

open Float.Model (UnpackedFloat)

namespace Value

/-- Equality without conversion; containers by reference, NaN unequal to itself. -/
def strictEq : Value → Value → Bool
  | .undefined, .undefined => true
  | .null, .null => true
  | .bool a, .bool b => a == b
  | .number x, .number y => x == y
  | .string s, .string t => s == t
  | .array a, .array b => a == b
  | .object a, .object b => a == b
  | .function f, .function g => f == g
  | _, _ => false

/-- Identity: as `strictEq`, but NaN is the same as NaN. -/
def same : Value → Value → Bool
  | .number x, .number y => x == y || (x.isNaN && y.isNaN)
  | v, w => v.strictEq w

theorem same_of_strictEq {v w : Value} (h : v.strictEq w = true) : v.same w = true := by
  cases v <;> cases w <;> simp_all [same, strictEq]

theorem beq_self_or_isNaN_unpacked (a : UnpackedFloat) : (a.beq a || a.isNaN) = true := by
  cases a with
  | infinity s => cases s <;> rfl
  | notANumber => rfl
  | zero s => rfl
  | finite s m e hpos =>
    have he : compare e e = .eq := Std.ReflCmp.compare_self
    have hm : compare m m = .eq := Std.ReflCmp.compare_self
    have hthen : (compare e e).then (compare m m) = .eq := by rw [he, hm]; rfl
    have hcompare : (UnpackedFloat.finite s m e hpos).compare (.finite s m e hpos) = some .eq := by
      cases s with
      | negative => exact congrArg (fun c => some c.swap) hthen
      | positive => exact congrArg some hthen
    have hbeq : (UnpackedFloat.finite s m e hpos).beq (.finite s m e hpos) = true :=
      congrArg (· == some Ordering.eq) hcompare
    rw [hbeq, Bool.true_or]

/-- A value is the same as itself, also if it is not a number. -/
theorem same_self (v : Value) : v.same v = true := by
  cases v with
  | number x =>
    have hx : (x == x || x.isNaN) = true := beq_self_or_isNaN_unpacked x.toModel.unpack
    simp only [same, Bool.and_self, hx]
  | _ => simp [same, strictEq]

end Value

namespace Heap

/-- A boolean as the number it counts for; other values as they are. -/
def numeric : Value → Value
  | .bool b => .number (if b then 1.0 else 0.0)
  | v => v

/-- Equality of numbers and texts, a text read as a number. -/
def looseEqFlat (v w : Value) : Bool :=
  match v, w with
  | .number x, .string t => x == Number.ofText t
  | .string s, .number y => Number.ofText s == y
  | v, w => v.strictEq w

/-- Equality with conversion: undefined equals null, booleans count as numbers, a container that
meets a number or a text counts as its own text. -/
def looseEq? (h : Heap) (v w : Value) : Option Bool :=
  if v.isNullish || w.isNullish then some (v.isNullish && w.isNullish)
  else
    let v := numeric v
    let w := numeric w
    match v.isContainer, w.isContainer with
    | true, false => (h.text? v).map fun s => looseEqFlat (.string s) w
    | false, true => (h.text? w).map fun t => looseEqFlat v (.string t)
    | _, _ => some (looseEqFlat v w)

/-- Equality of contents, at most `depth` levels down. -/
def deepEqWithin (h : Heap) : Nat → Value → Value → Option Bool
  | 0, .array a, .array b => if a = b then some true else none
  | 0, .object a, .object b => if a = b then some true else none
  | depth + 1, .array a, .array b =>
    if a = b then some true
    else if (h.items a).size = (h.items b).size then
      ((h.items a).toList.zip (h.items b).toList).allM fun (v, w) => h.deepEqWithin depth v w
    else some false
  | depth + 1, .object a, .object b =>
    if a = b then some true
    else if (h.record a).size = (h.record b).size then
      (h.record a).entries.allM fun (key, v) =>
        match (h.record b).get? key with
        | some w => h.deepEqWithin depth v w
        | none => some false
    else some false
  | _, v, w => some (v.same w)

/-- Equality of contents: arrays element by element, objects own property by own property, all
else by identity.  On the way down no pair of containers repeats unless there is no end, so the
number of pairs bounds the depth. -/
def deepEq? (h : Heap) (v w : Value) : Option Bool :=
  h.deepEqWithin (h.containerCount * h.containerCount + 1) v w

end Heap

end DataBinding
