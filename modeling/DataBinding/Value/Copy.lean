import DataBinding.Value.Frozen

/-!
# Copies

A shallow copy is a fresh container with the same elements; a deep copy has fresh containers all
the way down and shares functions only.  Neither keeps a prototype.  A container that contains
itself has no deep copy.
-/

namespace DataBinding

/-- What a value holds directly. -/
inductive Contents where
  | items (values : Array Value)
  | properties (record : Record Value)
  | plain (v : Value)

namespace Heap

/-- What a value holds at this moment. -/
def contents (h : Heap) : Value → Contents
  | .array a => .items (h.items a)
  | .object o => .properties (h.record o)
  | v => .plain v

/-- A fresh container with the given contents; a plain value is itself. -/
def ofContents (h : Heap) : Contents → Value × Heap
  | .items values =>
    let (a, h) := h.newArray values
    (.array a, h)
  | .properties record =>
    let (o, h) := h.newObject record none
    (.object o, h)
  | .plain v => (v, h)

/-- A fresh container with the same elements. -/
def shallowCopy (h : Heap) (v : Value) : Value × Heap := h.ofContents (h.contents v)

/-- A copy with fresh containers all the way down; `none` if there is no end. -/
def deepCopy? (h : Heap) (v : Value) : Option (Value × Heap) := (h.freeze? v).map (·.thaw h)

end Heap

end DataBinding
