/-!
# Values

The dynamic values that expressions compute with.  Arrays, objects and functions are references
into a heap: two of them are the same value when they are the same reference.
-/

namespace DataBinding

/-- The functions that every program finds already there, each one a single value. -/
inductive Intrinsic where
  | call
  | apply
  | bind
  | functionConstructor
  | objectConstructor
deriving DecidableEq, Repr

/-- The name that an intrinsic function carries. -/
def Intrinsic.name : Intrinsic → String
  | .call => "call"
  | .apply => "apply"
  | .bind => "bind"
  | .functionConstructor => "Function"
  | .objectConstructor => "Object"

/-- A reference to a function: an intrinsic, or one that was made. -/
inductive Callable where
  | intrinsic (which : Intrinsic)
  | made (ref : Nat)
deriving DecidableEq, Repr

/-- A dynamic value. -/
inductive Value where
  | undefined
  | null
  | bool (b : Bool)
  | number (x : Float)
  | string (s : String)
  | array (ref : Nat)
  | object (ref : Nat)
  | function (f : Callable)
deriving Repr, Inhabited

namespace Value

/-- The name of a value's type. -/
def kind : Value → String
  | .undefined => "undefined"
  | .null => "null"
  | .bool _ => "boolean"
  | .number _ => "number"
  | .string _ => "string"
  | .array _ => "array"
  | .object _ => "object"
  | .function _ => "function"

def isUndefined : Value → Bool
  | .undefined => true
  | _ => false

def isDefined (v : Value) : Bool := !v.isUndefined

def isNull : Value → Bool
  | .null => true
  | _ => false

/-- Undefined or null. -/
def isNullish : Value → Bool
  | .undefined | .null => true
  | _ => false

/-- Arrays, objects and functions: the values that can carry members. -/
def isContainer : Value → Bool
  | .array _ | .object _ | .function _ => true
  | _ => false

/-- What counts as true in a condition: everything but undefined, null, false, zero, NaN and the
empty text. -/
def truthy : Value → Bool
  | .undefined | .null => false
  | .bool b => b
  | .number x => x != 0.0 && !x.isNaN
  | .string s => !s.isEmpty
  | .array _ | .object _ | .function _ => true

/-- Undefined gives way to `fallback`. -/
def ifDefined (v fallback : Value) : Value := if v.isUndefined then fallback else v

/-- A count as a value. -/
def ofNat (n : Nat) : Value := .number (Float.ofNat n)

@[simp] theorem isDefined_eq_not_isUndefined (v : Value) : v.isDefined = !v.isUndefined := rfl

theorem isNullish_iff (v : Value) : v.isNullish = true ↔ v = .undefined ∨ v = .null := by
  cases v <;> simp [isNullish]

theorem isUndefined_iff (v : Value) : v.isUndefined = true ↔ v = .undefined := by
  cases v <;> simp [isUndefined]

end Value

end DataBinding
