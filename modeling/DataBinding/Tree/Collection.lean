import DataBinding.Heap.Member
import DataBinding.Value.Copy
import DataBinding.Value.Equality

/-!
# Watching the elements of a collection

A collection watch looks one level into a value.  Of a value that reads as a list it compares the
elements one by one, and any other value it compares by identity.  Every difference raises a count,
and the count is what the digest watches.

The listener of such a watch gets the value itself, and a shallow copy of what the listener got
the last time.
-/

namespace DataBinding

/-- What is seen of a value one level down. -/
inductive View where
  | list (items : List Value)
  | single (v : Value)

/-- The view of a value. -/
def Heap.view (h : Heap) (v : Value) : View :=
  if h.isArrayLike v then .list (h.listItems v).toList else .single v

namespace View

/-- The number of indices at which `items` shows something new. -/
def newItems (items old : List Value) : Nat :=
  (items.zip old).countP (fun (v, w) => !v.same w) + (items.length - old.length)

/-- How many differences there are to an older view. -/
def changesSince (view old : View) : Nat :=
  match view, old with
  | .list items, .list old => (if items.length = old.length then 0 else 1) + newItems items old
  | .single v, .single w => if v.same w then 0 else 1
  | _, _ => 1

end View

/-- The state of a collection watch: the view and the value that were seen last, the count of
changes, and what the value held at the last report, if there was one. -/
structure Collection where
  view : View := .single .undefined
  changes : Nat := 0
  latest : Value := .undefined
  reported : Option Contents := none

namespace Collection

/-- Takes a value in. -/
def notice (c : Collection) (h : Heap) (v : Value) : Collection :=
  { c with
    view := h.view v
    changes := c.changes + (h.view v).changesSince c.view
    latest := v }

/-- What the listener gets as the old value: the copy from the last report, or else the value
itself. -/
def oldValue (c : Collection) (h : Heap) : Value × Heap :=
  match c.reported with
  | some contents => h.ofContents contents
  | none => (c.latest, h)

/-- Remembers what the value holds at the moment of a report. -/
def report (c : Collection) (h : Heap) : Collection :=
  { c with reported := some (h.contents c.latest) }

end Collection

end DataBinding
