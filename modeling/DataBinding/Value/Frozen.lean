import DataBinding.Heap
import DataBinding.Value.Equality

/-!
# Frozen values

A frozen value is what a value holds at one moment, all the way down: the containers are written
out, and only functions stay references.  Nothing that happens to the heap afterwards changes it.
A container that contains itself cannot be frozen.

To thaw a frozen value is to make fresh containers with the same contents.  `Heap.agrees` compares a
value with a frozen one by contents.
-/

namespace DataBinding

/-- A value as it was at one moment.  A leaf is kept by identity. -/
inductive Frozen where
  | leaf (v : Value)
  | array (items : List Frozen)
  | object (entries : List (String × Frozen))

namespace Heap

/-! ## Freezing -/

/-- The frozen form of a value, at most `depth` levels down. -/
def freezeWithin (h : Heap) : Nat → Value → Option Frozen
  | depth + 1, .array a => do
    return .array (← (h.items a).toList.mapM (h.freezeWithin depth))
  | depth + 1, .object o => do
    return .object (← (h.record o).entries.mapM fun (key, v) => do
      return (key, ← h.freezeWithin depth v))
  | 0, .array _ | 0, .object _ => none
  | _, v => some (.leaf v)

/-- The frozen form of a value; `none` if there is no end.  On the way down no container repeats
unless there is no end, so their number bounds the depth. -/
def freeze? (h : Heap) (v : Value) : Option Frozen := h.freezeWithin (h.containerCount + 1) v

/-! ## Comparing -/

mutual

/-- Whether a value has the contents of a frozen one. -/
def agrees (h : Heap) : Frozen → Value → Bool
  | .leaf w, v => v.same w
  | .array items, .array a => h.agreesItems items (h.items a).toList
  | .object entries, .object o =>
    (h.record o).size == entries.length && h.agreesEntries entries (h.record o)
  | _, _ => false

/-- Whether elements have the contents of frozen ones. -/
def agreesItems (h : Heap) : List Frozen → List Value → Bool
  | [], [] => true
  | f :: items, v :: values => h.agrees f v && h.agreesItems items values
  | _, _ => false

/-- Whether a record has all the properties of a frozen object. -/
def agreesEntries (h : Heap) : List (String × Frozen) → Record Value → Bool
  | [], _ => true
  | (key, f) :: entries, r =>
    (match r.get? key with
      | some v => h.agrees f v
      | none => false) && h.agreesEntries entries r

end

end Heap

/-! ## Thawing -/

namespace Frozen

mutual

/-- A value with the contents of a frozen one, every container in it fresh. -/
def thaw : Frozen → Heap → Value × Heap
  | .leaf v, h => (v, h)
  | .array items, h =>
    let (values, h) := thawItems items h
    let (a, h) := h.newArray values.toArray
    (.array a, h)
  | .object entries, h =>
    let (entries, h) := thawEntries entries h
    let (o, h) := h.newObject ⟨entries⟩ none
    (.object o, h)

/-- Thaws elements. -/
def thawItems : List Frozen → Heap → List Value × Heap
  | [], h => ([], h)
  | f :: items, h =>
    let (v, h) := thaw f h
    let (values, h) := thawItems items h
    (v :: values, h)

/-- Thaws properties. -/
def thawEntries : List (String × Frozen) → Heap → List (String × Value) × Heap
  | [], h => ([], h)
  | (key, f) :: entries, h =>
    let (v, h) := thaw f h
    let (rest, h) := thawEntries entries h
    ((key, v) :: rest, h)

end

end Frozen

end DataBinding
