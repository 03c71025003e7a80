import DataBinding.Heap
import DataBinding.Number.Reading

/-!
# Conversion to text and to number

The text of a value joins the elements of arrays, so it follows references: for an array that
contains itself there is no text.  `none` stands for that.  A chain of nested arrays without a
repetition is no longer than the number of arrays, which bounds the depth to look into.
-/

namespace DataBinding

namespace Heap

/-- The text of a value, looking into arrays at most `depth` deep. -/
def textWithin (h : Heap) : Nat → Value → Option String
  | _, .undefined => some "undefined"
  | _, .null => some "null"
  | _, .bool b => some (if b then "true" else "false")
  | _, .number x => some (Number.text x)
  | _, .string s => some s
  | _, .object _ => some "[object Object]"
  | _, .function f =>
    some ("function " ++ h.functionName f ++ "() \x7b [native code] \x7d")
  | 0, .array _ => none
  | depth + 1, .array a => do
    let parts ← (h.items a).toList.mapM fun v =>
      if v.isNullish then some "" else h.textWithin depth v
    return ",".intercalate parts

/-- The text of a value; `none` if it has no end. -/
def text? (h : Heap) (v : Value) : Option String := h.textWithin (h.arrays.size + 1) v

/-- The number that a value converts to; `none` if the text it is read from has no end. -/
def toNumber (h : Heap) : Value → Option Float
  | .undefined => some (0.0 / 0.0)
  | .null => some 0.0
  | .bool b => some (if b then 1.0 else 0.0)
  | .number x => some x
  | .string s => some (Number.ofText s)
  | .array a => (h.text? (.array a)).map Number.ofText
  | .object _ | .function _ => some (0.0 / 0.0)

@[simp] theorem text?_string (h : Heap) (s : String) : h.text? (.string s) = some s := rfl

@[simp] theorem toNumber_number (h : Heap) (x : Float) : h.toNumber (.number x) = some x := rfl

end Heap

end DataBinding
