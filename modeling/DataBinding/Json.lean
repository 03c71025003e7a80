import DataBinding.Heap
import DataBinding.Number.Binary

/-!
# Values as JSON

The JSON view of a value and the value of a JSON document.  The view has no prototypes, writes
undefined, functions and numbers that are not finite as null, and keeps the members of an object
sorted by name; integers of less than `integerBound` are integers in it.

`ofJson` builds fresh containers, an object's properties in the order of its sorted names.
-/

namespace DataBinding

/-- A JSON document.  The members of an object are sorted by name, each name once. -/
inductive Json where
  | null
  | bool (b : Bool)
  | integer (n : Int)
  | double (x : Float)
  | string (s : String)
  | array (items : List Json)
  | object (members : List (String × Json))

namespace Json

/-- Puts a member into sorted members; the newer one of two with one name is kept. -/
def insertMember (key : String) (x : α) : List (String × α) → List (String × α)
  | [] => [(key, x)]
  | (k, y) :: rest =>
    if key < k then (key, x) :: (k, y) :: rest
    else if k = key then (key, x) :: rest
    else (k, y) :: insertMember key x rest

/-- Members in sorted order; of several with one name, the last. -/
def sortMembers (members : List (String × α)) : List (String × α) :=
  members.foldl (fun sorted m => insertMember m.1 m.2 sorted) []

/-- Integers of smaller magnitude are written as integers. -/
def integerBound : Nat := 9 * Nat.pow 10 15

/-- The JSON number of a number. -/
def ofNumber (x : Float) : Json :=
  match Binary.ofFloat? x, Number.toInt? x with
  | none, _ => .null
  | some b, some n => if b.magnitude < integerBound then .integer n else .double x
  | some _, none => .double x

end Json

namespace Heap

/-- The JSON view of a value, at most `depth` containers deep. -/
def toJsonWithin (h : Heap) : Nat → Value → Option Json
  | _, .undefined | _, .null | _, .function _ => some .null
  | _, .bool b => some (.bool b)
  | _, .number x => some (.ofNumber x)
  | _, .string s => some (.string s)
  | 0, .array _ | 0, .object _ => none
  | depth + 1, .array a => do
    return .array (← (h.items a).toList.mapM (h.toJsonWithin depth))
  | depth + 1, .object o => do
    let members ← (h.record o).entries.mapM fun (key, v) => do
      return (key, ← h.toJsonWithin depth v)
    return .object (Json.sortMembers members)

/-- The JSON view of a value; `none` for a container that contains itself. -/
def toJson? (h : Heap) (v : Value) : Option Json := h.toJsonWithin (h.containerCount + 1) v

end Heap

namespace Json

mutual

/-- The value of a document, in fresh containers. -/
def toValue (h : Heap) : Json → Value × Heap
  | .null => (.null, h)
  | .bool b => (.bool b, h)
  | .integer n => (.number (Float.ofInt n), h)
  | .double x => (.number x, h)
  | .string s => (.string s, h)
  | .array items =>
    let (values, h) := toValues h items
    let (ref, h) := h.newArray values.toArray
    (.array ref, h)
  | .object members =>
    let (entries, h) := toEntries h members
    let (ref, h) := h.newObject (.ofList entries) none
    (.object ref, h)

/-- The values of the elements of a document. -/
def toValues (h : Heap) : List Json → List Value × Heap
  | [] => ([], h)
  | j :: rest =>
    let (v, h) := toValue h j
    let (vs, h) := toValues h rest
    (v :: vs, h)

/-- The values of the members of a document. -/
def toEntries (h : Heap) : List (String × Json) → List (String × Value) × Heap
  | [] => ([], h)
  | (key, j) :: rest =>
    let (v, h) := toValue h j
    let (es, h) := toEntries h rest
    ((key, v) :: es, h)

end

end Json

end DataBinding
