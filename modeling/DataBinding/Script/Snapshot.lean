import DataBinding.Heap

/-!
# Snapshots of values

A finite picture of a value and all it contains at one moment.  A container inside itself is drawn
as the number of levels to its outermost occurrence; a long array is drawn by its ends.
-/

namespace DataBinding

/-- A picture of a value. -/
inductive Snapshot where
  | undefined
  | null
  | bool (b : Bool)
  | number (x : Float)
  | string (s : String)
  | array (items : List Snapshot)
  | longArray (size : Nat) (head tail : List Snapshot)
  | object (entries : List (String × Snapshot)) (inherits : Bool)
  | function (name : String)
  | ancestor (level : Nat)
deriving Inhabited

namespace Snapshot

/-- Arrays up to this size are drawn in full. -/
def fullSize : Nat := 256

/-- How many elements are drawn of each end of a longer array. -/
def endSize : Nat := 3

end Snapshot

namespace Heap

/-- The level of a container among those that enclose it, the innermost coming first. -/
def level? (enclosing : List Value) (v : Value) : Option Nat :=
  (enclosing.reverse).findIdx? fun w =>
    match v, w with
    | .array a, .array b => a == b
    | .object a, .object b => a == b
    | _, _ => false

/-- The picture of a value inside the containers `enclosing`, at most `depth` levels down. -/
def snapshotWithin (h : Heap) : Nat → List Value → Value → Snapshot
  | _, _, .undefined => .undefined
  | _, _, .null => .null
  | _, _, .bool b => .bool b
  | _, _, .number x => .number x
  | _, _, .string s => .string s
  | _, _, .function f => .function (h.functionName f)
  | 0, _, _ => .undefined
  | depth + 1, enclosing, .array a =>
    match level? enclosing (.array a) with
    | some level => .ancestor level
    | none =>
      let draw := fun v => h.snapshotWithin depth (.array a :: enclosing) v
      let items := h.items a
      if items.size ≤ Snapshot.fullSize then .array (items.toList.map draw)
      else
        .longArray items.size ((items.extract 0 Snapshot.endSize).toList.map draw)
          ((items.extract (items.size - Snapshot.endSize) items.size).toList.map draw)
  | depth + 1, enclosing, .object o =>
    match level? enclosing (.object o) with
    | some level => .ancestor level
    | none =>
      .object
        ((h.record o).entries.map fun (key, v) =>
          (key, h.snapshotWithin depth (.object o :: enclosing) v))
        (h.proto o).isSome

/-- The picture of a value.  No container encloses itself in it, so it is no deeper than there are
containers. -/
def snapshot (h : Heap) (v : Value) : Snapshot := h.snapshotWithin (h.containerCount + 2) [] v

end Heap

end DataBinding
