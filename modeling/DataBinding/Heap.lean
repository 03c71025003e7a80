import DataBinding.Record
import DataBinding.Value

/-!
# The heap

Arrays, objects and functions live in the heap and are shared by reference.  Nothing is ever
freed, and a reference that was never handed out reads as an empty container, so every reading is
total.

An object may inherit from a prototype, which is fixed when the object is made and is therefore
older: the walk along prototypes goes down in references and ends.

## Main definitions

* `Heap.newArray`, `Heap.newObject`, `Heap.newFunction` make fresh references.
* `Heap.items`, `Heap.object`, `Heap.function?` read, and `Heap.setItems`, `Heap.setRecord`
  overwrite what a reference holds.
* `Heap.find?` looks a name up along the prototypes.
-/

namespace DataBinding

/-- An object: its own properties, and the object it inherits from. -/
structure Object where
  record : Record Value
  proto : Option Nat
deriving Inhabited

/-- A function that was made: one of the host's, known by its name, or another function with its
receiver and first arguments fixed. -/
inductive Closure where
  | native (name : String)
  | bound (name : String) (target : Callable) (this : Value) (args : List Value)

/-- The containers that references point to. -/
structure Heap where
  arrays : Array (Array Value)
  objects : Array Object
  closures : Array Closure

namespace Heap

/-- The heap without containers. -/
def empty : Heap := ⟨#[], #[], #[]⟩

instance : Inhabited Heap := ⟨empty⟩

/-! ## Making containers -/

/-- A fresh array. -/
def newArray (h : Heap) (items : Array Value) : Nat × Heap :=
  (h.arrays.size, { h with arrays := h.arrays.push items })

/-- A fresh object. -/
def newObject (h : Heap) (record : Record Value) (proto : Option Nat) : Nat × Heap :=
  (h.objects.size, { h with objects := h.objects.push ⟨record, proto⟩ })

/-- A fresh function. -/
def newFunction (h : Heap) (closure : Closure) : Nat × Heap :=
  (h.closures.size, { h with closures := h.closures.push closure })

/-! ## Reading and overwriting -/

/-- The elements of an array. -/
def items (h : Heap) (a : Nat) : Array Value := h.arrays[a]?.getD #[]

/-- An object. -/
def object (h : Heap) (o : Nat) : Object := h.objects[o]?.getD ⟨.empty, none⟩

/-- The own properties of an object. -/
def record (h : Heap) (o : Nat) : Record Value := (h.object o).record

/-- The object that an object inherits from. -/
def proto (h : Heap) (o : Nat) : Option Nat := (h.object o).proto

/-- A function that was made. -/
def closure? (h : Heap) (f : Nat) : Option Closure := h.closures[f]?

/-- Replaces the elements of an array. -/
def setItems (h : Heap) (a : Nat) (items : Array Value) : Heap :=
  { h with arrays := h.arrays.setIfInBounds a items }

/-- Replaces the own properties of an object. -/
def setRecord (h : Heap) (o : Nat) (record : Record Value) : Heap :=
  { h with objects := h.objects.modify o ({ · with record }) }

/-- Writes an own property. -/
def setOwn (h : Heap) (o : Nat) (key : String) (v : Value) : Heap :=
  h.setRecord o ((h.record o).set key v)

/-- The nearest property of a name: an own one, or else the prototype's. -/
def find? (h : Heap) (key : String) (o : Nat) : Option Value :=
  match (h.record o).get? key with
  | some v => some v
  | none =>
    match h.proto o with
    | some p => if p < o then h.find? key p else none
    | none => none
termination_by o

/-- The value of a property; undefined if there is none. -/
def get (h : Heap) (o : Nat) (key : String) : Value := (h.find? key o).getD .undefined

/-- The name that a function carries. -/
def functionName (h : Heap) : Callable → String
  | .intrinsic i => i.name
  | .made f =>
    match h.closure? f with
    | some (.native name) => name
    | some (.bound name ..) => name
    | none => ""

/-- How many arrays and objects there are. -/
def containerCount (h : Heap) : Nat := h.arrays.size + h.objects.size

/-! ## What the operations answer -/

@[simp] theorem items_newArray_self (h : Heap) (items : Array Value) :
    (h.newArray items).2.items (h.newArray items).1 = items := by
  simp [newArray, Heap.items]

theorem items_newArray_of_lt (h : Heap) (items : Array Value) {a : Nat} (ha : a < h.arrays.size) :
    (h.newArray items).2.items a = h.items a := by
  simp [newArray, Heap.items, Array.getElem?_push_lt ha, Array.getElem?_eq_getElem ha]

@[simp] theorem object_newArray (h : Heap) (items : Array Value) (o : Nat) :
    (h.newArray items).2.object o = h.object o := rfl

@[simp] theorem object_newObject_self (h : Heap) (record : Record Value) (proto : Option Nat) :
    (h.newObject record proto).2.object (h.newObject record proto).1 = ⟨record, proto⟩ := by
  simp [newObject, Heap.object]

theorem object_newObject_of_lt (h : Heap) (record : Record Value) (proto : Option Nat) {o : Nat}
    (ho : o < h.objects.size) : (h.newObject record proto).2.object o = h.object o := by
  simp [newObject, Heap.object, Array.getElem?_push_lt ho, Array.getElem?_eq_getElem ho]

@[simp] theorem items_newObject (h : Heap) (record : Record Value) (proto : Option Nat) (a : Nat) :
    (h.newObject record proto).2.items a = h.items a := rfl

theorem items_setItems_self (h : Heap) {a : Nat} (ha : a < h.arrays.size) (items : Array Value) :
    (h.setItems a items).items a = items := by
  simp [setItems, Heap.items, ha]

@[simp] theorem items_setItems_of_ne (h : Heap) {a b : Nat} (hab : b ≠ a) (items : Array Value) :
    (h.setItems a items).items b = h.items b := by
  simp [setItems, Heap.items, Array.getElem?_setIfInBounds_ne (Ne.symm hab)]

@[simp] theorem object_setItems (h : Heap) (a : Nat) (items : Array Value) (o : Nat) :
    (h.setItems a items).object o = h.object o := rfl

theorem record_setRecord_self (h : Heap) {o : Nat} (ho : o < h.objects.size)
    (record : Record Value) : (h.setRecord o record).record o = record := by
  simp [setRecord, Heap.record, Heap.object, Array.getElem_modify, ho]

@[simp] theorem object_setRecord_of_ne (h : Heap) {o p : Nat} (hop : p ≠ o)
    (record : Record Value) : (h.setRecord o record).object p = h.object p := by
  simp [setRecord, Heap.object, Array.getElem?_modify, Ne.symm hop]

@[simp] theorem items_setRecord (h : Heap) (o : Nat) (record : Record Value) (a : Nat) :
    (h.setRecord o record).items a = h.items a := rfl

theorem find?_of_own {h : Heap} {key : String} {o : Nat} {v : Value}
    (hv : (h.record o).get? key = some v) : h.find? key o = some v := by
  rw [find?, hv]

theorem find?_of_proto {h : Heap} {key : String} {o p : Nat}
    (hk : (h.record o).get? key = none) (hp : h.proto o = some p) (hlt : p < o) :
    h.find? key o = h.find? key p := by
  rw [find?, hk, hp]
  simp [hlt]

theorem find?_of_root {h : Heap} {key : String} {o : Nat}
    (hk : (h.record o).get? key = none) (hp : h.proto o = none) : h.find? key o = none := by
  rw [find?, hk, hp]

end Heap

end DataBinding
