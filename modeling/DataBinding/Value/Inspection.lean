import DataBinding.Heap
import DataBinding.Number.Text
import DataBinding.Text.Quoted

/-!
# Inspection

The text that shows what a value is made of: texts in quotes, the elements of arrays, the own
properties of objects, the kind of a function.  A container that contains itself has none.
-/

namespace DataBinding

namespace Heap

/-- The kind of a function. -/
def functionKind : Callable → String
  | .intrinsic .call => "Call"
  | .intrinsic .apply => "Apply"
  | .intrinsic .bind => "Bind"
  | .intrinsic .functionConstructor => "FunctionConstructor"
  | .intrinsic .objectConstructor => "ObjectConstructor"
  | .made _ => "Native"

/-- The inspection of a value, at most `depth` containers deep. -/
def inspectWithin (h : Heap) : Nat → Value → Option String
  | _, .undefined => some "undefined"
  | _, .null => some "null"
  | _, .bool b => some (if b then "true" else "false")
  | _, .number x => some (Number.text x)
  | _, .string s => some (Text.quoted s)
  | _, .function f =>
    some ("Function \x7b name: " ++ Text.quoted (h.functionName f) ++ ", kind: " ++
      functionKind f ++ " \x7d")
  | 0, .array _ | 0, .object _ => none
  | depth + 1, .array a => do
    let parts ← (h.items a).toList.mapM (h.inspectWithin depth)
    return "[" ++ ", ".intercalate parts ++ "]"
  | depth + 1, .object o => do
    let parts ← (h.record o).entries.mapM fun (key, v) => do
      return Text.quoted key ++ ": " ++ (← h.inspectWithin depth v)
    return "\x7b" ++ ", ".intercalate parts ++ "\x7d"

/-- The inspection of a value; `none` if it has no end. -/
def inspect? (h : Heap) (v : Value) : Option String := h.inspectWithin (h.containerCount + 1) v

end Heap

end DataBinding
