import DataBinding.Heap.Member
import DataBinding.Script.Action
import DataBinding.Script.Reply
import DataBinding.Value.Copy

/-!
# Actions on values

What the actions on values do to the heap, and what they reply.
-/

namespace DataBinding.Script

variable {η : Type}

/-- The bound on chains of function calls in scripts. -/
def callLimit : Nat := 100000

/-- The picture of a value. -/
def draw (v : Value) : Noting η Snapshot := Store.reading (·.snapshot v)

/-- A computation whose value or error is drawn. -/
def drawn (m : Noting η Value) : Noting η (Except Error Snapshot) := do
  match ← m.attempt with
  | .ok v => return .ok (← draw v)
  | .error e => return .error e

/-- Builds a value that may be left out. -/
def buildOptional : Option Template → Noting η (Option Value)
  | some t => do return some (← t.build)
  | none => pure none

/-- Builds values one after another. -/
def buildAll (ts : List Template) : Noting η (List Value) := ts.mapM (·.build)

/-- Replies with a picture. -/
def picture (v : Value) : Noting η Reply := do
  return .value (← draw v)

/-- Replies with a value, which is also put into a register if there is one for it. -/
def give (register : Option String) (v : Value) : Noting η Reply := do
  Template.keep register v
  picture v

/-- Replies with a picture of a value that may be missing. -/
def showOptional (v : Option Value) : Noting η Reply := do
  match v with
  | some v => return .optional (some (← draw v))
  | none => return .optional none

namespace ValueDeed

/-- An action on an object; other values have no reply. -/
def onObject (v : Template) (act : Nat → Noting η Reply) : Noting η Reply := do
  match ← v.build with
  | .object o => act o
  | _ => return .nothing

/-- An action on an array; other values have no reply. -/
def onArray (v : Template) (act : Nat → Noting η Reply) : Noting η Reply := do
  match ← v.build with
  | .array a => act a
  | _ => return .nothing

/-- Changes the properties of an object and shows it. -/
def changeObject (o : Nat) (f : Record Value → Record Value) : Noting η Reply := do
  Store.changing fun h => h.setRecord o (f (h.record o))
  picture (.object o)

/-- Changes the elements of an array, unless that is refused, and shows it. -/
def changeArray (a : Nat) (f : Array Value → Except Error (Array Value)) : Noting η Reply := do
  Store.changingIf fun h => some ((f (h.items a)).map (h.setItems a ·))
  picture (.array a)

/-- Does an action on values. -/
def perform (register : Option String) : ValueDeed → Noting η Reply
  | .make v => do give register (← v.build)
  | .getMember v key => do
    let v ← v.build
    give register (← Store.reading (·.getMember v key))
  | .hasMember v key => do
    let v ← v.build
    return .flag (← Store.reading (·.hasMember v key))
  | .setMember v key x => do
    let v ← v.build
    let x ← x.build
    Store.changingIf (·.setMember v key x)
    picture v
  | .getProperty v key => onObject v fun o => do give register (← Store.reading (·.get o key))
  | .getOwn v key => onObject v fun o => do
    showOptional (← Store.reading fun h => (h.record o).get? key)
  | .hasProperty v key => onObject v fun o =>
    Store.reading fun h => .flags [(h.find? key o).isSome, (h.record o).has key]
  | .setOwn v key x => onObject v fun o => do
    let x ← x.build
    changeObject o (·.set key x)
  | .removeOwn v key => onObject v fun o => do
    let removed ← Store.reading fun h => (h.record o).get? key
    Store.changing fun h => h.setRecord o ((h.record o).erase key)
    showOptional removed
  | .keys v => onObject v fun o => Store.reading fun h => .keys (h.record o).keys
  | .clear v => onObject v fun o => changeObject o fun _ => .empty
  | .proto v => onObject v fun o => do
    showOptional ((← Store.reading (·.proto o)).map .object)
  | .getItem v i => onArray v fun a => do
    give register (← Store.reading fun h => (h.items a)[i]?.getD .undefined)
  | .setItem v i x => onArray v fun a => do
    let x ← x.build
    changeArray a (writeItem · i x)
  | .push v x => onArray v fun a => do
    let x ← x.build
    changeArray a fun items => .ok (items.push x)
  | .pop v => onArray v fun a => do
    let last ← Store.reading fun h => (h.items a).back?
    Store.changing fun h => h.setItems a (h.items a).pop
    showOptional last
  | .setLength v n => onArray v fun a => changeArray a (resize · n)
  | .length v => onArray v fun a => Store.reading fun h => .length (h.items a).size
  | .deepCopy v => do
    let v ← v.build
    give register (← .alterEndless fun s =>
      (s.heap.deepCopy? v).map fun (w, heap) => (w, { s with heap }))
  | .shallowCopy v => do
    let v ← v.build
    give register (← Store.making (·.shallowCopy v))
  | .compare v x => do
    let v ← v.build
    let x ← x.build
    let there ← Store.readingEndless (·.compare? v x)
    return .comparison there (← Store.readingEndless (·.compare? x v))
  | .asList v => do
    let v ← v.build
    let items ← Store.reading fun h => (h.listItems v).toList.map h.snapshot
    return .listing (← Store.reading (·.isArrayLike v)) items
  | .call v this args => do
    let v ← v.build
    let args ← buildAll args
    let this ← this.build
    match v with
    | .function f => give register (← library.invoke callLimit f this args)
    | _ => return .nothing

end ValueDeed

end DataBinding.Script
