import DataBinding.Script.Functions

/-!
# Templates of values

A description of a value that is yet to be made.  Every container in it becomes a fresh one each
time it is built; it may be given a name, under which it is put into a register before its parts
are built, so a part can refer to the whole.
-/

namespace DataBinding.Script

/-- A description of a value. -/
inductive Template where
  | undefined
  | null
  | bool (b : Bool)
  | number (x : Float)
  | string (s : String)
  | array (register : Option String) (items : List Template)
  | object (register : Option String) (proto : Option Template)
      (entries : List (String × Template))
  | function (register : Option String) (name : String)
  | kept (name : String)
  | repeated (count : Nat) (item : Template)
deriving Inhabited

namespace Template

variable {η : Type}

/-- Puts a value into a register, if it has one. -/
def keep (register : Option String) (v : Value) : Noting η Unit :=
  match register with
  | some name => .change fun s => { s with host := s.host.setRegister name v }
  | none => pure ()

/-- The function of that name: an intrinsic, or a fresh one. -/
def functionNamed (name : String) : Noting η Value :=
  match name with
  | "call" => pure (.function (.intrinsic .call))
  | "apply" => pure (.function (.intrinsic .apply))
  | "bind" => pure (.function (.intrinsic .bind))
  | "Function" => pure (.function (.intrinsic .functionConstructor))
  | "Object" => pure (.function (.intrinsic .objectConstructor))
  | _ => do return .function (.made (← Store.making (·.newFunction (.native name))))

mutual

/-- Builds the value. -/
def build : Template → Noting η Value
  | .undefined => pure .undefined
  | .null => pure .null
  | .bool b => pure (.bool b)
  | .number x => pure (.number x)
  | .string s => pure (.string s)
  | .array register items => do
    let a ← Store.making (·.newArray #[])
    keep register (.array a)
    buildItems a items
    return .array a
  | .object register proto entries => do
    let proto ← buildProto proto
    let o ← Store.making (·.newObject .empty proto)
    keep register (.object o)
    buildEntries o entries
    return .object o
  | .function register name => do
    let f ← functionNamed name
    keep register f
    return f
  | .kept name => .read fun s => (s.host.registers.get? name).getD .undefined
  | .repeated count item => do
    let v ← build item
    return .array (← Store.making (·.newArray (Array.replicate count v)))

/-- Builds the prototype of an object. -/
def buildProto : Option Template → Noting η (Option Nat)
  | some t => do
    match ← build t with
    | .object p => return some p
    | _ => return none
  | none => pure none

/-- Builds elements and puts them at the end of an array. -/
def buildItems (a : Nat) : List Template → Noting η Unit
  | [] => pure ()
  | t :: rest => do
    let v ← build t
    Store.changing fun h => h.setItems a ((h.items a).push v)
    buildItems a rest

/-- Builds properties and writes them into an object. -/
def buildEntries (o : Nat) : List (String × Template) → Noting η Unit
  | [] => pure ()
  | (key, t) :: rest => do
    let v ← build t
    Store.changing (·.setOwn o key v)
    buildEntries o rest

end

end Template

end DataBinding.Script
