import DataBinding.Error
import DataBinding.Heap
import DataBinding.Number.Binary
import DataBinding.Number.Reading
import DataBinding.Value.Text

/-!
# Members

Reading and writing `value.key` and `value[key]` for every kind of value: properties of objects,
elements and length of arrays, characters of texts, and the few members of functions.

An array grows by at most `maxGrowth` elements in one write, so a text that names a far index
cannot exhaust memory; a refused write changes nothing.
-/

namespace DataBinding

/-- The machine integers end here. -/
def machineBound : Nat := Nat.pow 2 64

/-- The index that a key denotes: digits without a leading zero, after an optional plus sign. -/
def indexOfKey? (key : String) : Option Nat :=
  let cs := key.toList
  if cs.length > 1 ∧ cs.head? = some '0' then none
  else
    let digits := match cs with
      | '+' :: rest => rest
      | _ => cs
    if digits ≠ [] ∧ digits.all Char.isDigit ∧ digitsValue digits < machineBound then
      some (digitsValue digits)
    else none

/-! ## Array growth -/

/-- By how many elements one write may lengthen an array. -/
def maxGrowth : Nat := Nat.pow 2 16

/-- The elements after writing index `i`, the gap filled with undefined. -/
def writeItem (items : Array Value) (i : Nat) (v : Value) : Except Error (Array Value) :=
  if i < items.size then .ok (items.setIfInBounds i v)
  else if i + 1 - items.size ≤ maxGrowth then
    .ok ((items ++ Array.replicate (i - items.size) Value.undefined).push v)
  else .error (.evaluation (.growth items.size i))

/-- The elements cut or filled up with undefined to length `n`. -/
def resize (items : Array Value) (n : Nat) : Except Error (Array Value) :=
  if n ≤ items.size then .ok (items.extract 0 n)
  else if n - items.size ≤ maxGrowth then
    .ok (items ++ Array.replicate (n - items.size) Value.undefined)
  else .error (.evaluation (.growth items.size n))

/-- An index beyond the end makes the array just long enough. -/
theorem size_writeItem {items written : Array Value} {i : Nat} {v : Value}
    (h : writeItem items i v = .ok written) : written.size = max items.size (i + 1) := by
  unfold writeItem at h
  split at h
  · cases h
    rw [Array.size_setIfInBounds]
    omega
  · split at h
    · cases h
      rw [Array.size_push, Array.size_append, Array.size_replicate]
      omega
    · cases h

theorem size_resize {items resized : Array Value} {n : Nat} (h : resize items n = .ok resized) :
    resized.size = n := by
  unfold resize at h
  split at h
  · cases h
    rw [Array.size_extract]
    omega
  · split at h
    · cases h
      rw [Array.size_append, Array.size_replicate]
      omega
    · cases h

namespace Heap

/-! ## Reading -/

/-- The members of a function: the three that call it, and its name. -/
def functionMember (h : Heap) (f : Callable) (key : String) : Value :=
  if key = "call" then .function (.intrinsic .call)
  else if key = "apply" then .function (.intrinsic .apply)
  else if key = "bind" then .function (.intrinsic .bind)
  else if key = "name" then .string (h.functionName f)
  else .undefined

/-- The value of a member; undefined if there is none. -/
def getMember (h : Heap) (v : Value) (key : String) : Value :=
  match v with
  | .object o => h.get o key
  | .array a =>
    if key = "length" then .ofNat (h.items a).size
    else ((indexOfKey? key).bind fun i => (h.items a)[i]?).getD .undefined
  | .string s =>
    if key = "length" then .ofNat s.length
    else ((indexOfKey? key).bind fun i => s.toList[i]?.map (.string ·.toString)).getD .undefined
  | .function f => h.functionMember f key
  | _ => .undefined

/-- Whether a value has a member of that name. -/
def hasMember (h : Heap) (v : Value) (key : String) : Bool :=
  match v with
  | .object o => (h.find? key o).isSome
  | .array a => key = "length" || (indexOfKey? key).any (· < (h.items a).size)
  | .function f => (h.functionMember f key).isDefined
  | _ => false

/-! ## Writing -/

/-- Writes a member.  Undefined and null have none to write; on other values that hold no such
member the write is ignored.  `none` if the new length of an array is itself an endless text. -/
def setMember (h : Heap) (v : Value) (key : String) (x : Value) : Option (Except Error Heap) :=
  match v with
  | .object o => some (.ok (h.setOwn o key x))
  | .array a =>
    if key = "length" then
      (h.toNumber x).map fun n =>
        match Number.toCount? n with
        | some count =>
          (resize (h.items a) (min count (machineBound - 1))).map (h.setItems a ·)
        | none => .ok h
    else
      match indexOfKey? key with
      | some i => some ((writeItem (h.items a) i x).map (h.setItems a ·))
      | none => some (.ok h)
  | .undefined | .null => some (.error (.evaluation (.propertyOfNullish key v.kind)))
  | _ => some (.ok h)

@[simp] theorem setMember_object (h : Heap) (o : Nat) (key : String) (x : Value) :
    h.setMember (.object o) key x = some (.ok (h.setOwn o key x)) := rfl

/-- What a write to a member changes: nothing, the elements of the array, or a property of the
object. -/
theorem setMember_cases {h h' : Heap} {base v : Value} {key : String}
    (hwrite : h.setMember base key v = some (.ok h')) : h' = h ∨
    (∃ a items, base = .array a ∧ h' = h.setItems a items) ∨
      ∃ o, base = .object o ∧ h' = h.setOwn o key v := by
  have hmap : ∀ {a : Nat} {x : Except Error (Array Value)}, x.map (h.setItems a ·) = .ok h' →
      ∃ items, h' = h.setItems a items := by
    intro a x hx
    cases x with
    | ok items =>
      cases hx
      exact ⟨items, rfl⟩
    | error e => cases hx
  cases base with
  | object o =>
    cases hwrite
    exact .inr (.inr ⟨o, rfl, rfl⟩)
  | array a =>
    unfold setMember at hwrite
    dsimp only at hwrite
    split at hwrite
    · obtain ⟨n, -, hwrite⟩ := Option.map_eq_some_iff.1 hwrite
      split at hwrite
      · obtain ⟨items, rfl⟩ := hmap hwrite
        exact .inr (.inl ⟨a, items, rfl, rfl⟩)
      · cases hwrite
        exact .inl rfl
    · split at hwrite
      · obtain ⟨items, rfl⟩ := hmap (Option.some.inj hwrite)
        exact .inr (.inl ⟨a, items, rfl, rfl⟩)
      · cases hwrite
        exact .inl rfl
  | undefined | null => cases hwrite
  | bool | number | string | function =>
    cases hwrite
    exact .inl rfl

/-! ## Array-likes -/

/-- The length of an object that counts as a list: a `length` that is a count no greater than the
number of its own properties. -/
def listLength? (h : Heap) (o : Nat) : Option Nat :=
  match h.get o "length" with
  | .number x => (Number.toCount? x).filter (· ≤ (h.record o).size)
  | _ => none

/-- Whether a value can be read as a list of elements. -/
def isArrayLike (h : Heap) : Value → Bool
  | .array _ => true
  | .object o => (h.listLength? o).isSome
  | _ => false

/-- The elements of a value that can be read as a list; else none. -/
def listItems (h : Heap) : Value → Array Value
  | .array a => h.items a
  | .object o =>
    match h.listLength? o with
    | some n => (Array.range n).map fun i => h.get o (Nat.repr i)
    | none => #[]
  | _ => #[]

end Heap

end DataBinding
