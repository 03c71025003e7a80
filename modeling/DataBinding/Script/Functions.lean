import DataBinding.Expression
import DataBinding.Script.Notebook

/-!
# The functions and filters of scripts

A small library of functions and filters to try expressions with: some only move values about,
some count or write to the log, one always fails, and two lead to what guards refuse.
-/

namespace DataBinding.Script

variable {η : Type}

/-- A computation on a notebook and the heap. -/
abbrev Noting (η α : Type) : Type := Compute (Store (Notebook η)) α

/-- Adds a line that draws a value to the log. -/
def logging (entry : Snapshot → LogEntry) (v : Value) : Noting η Unit :=
  .change fun s => { s with host := s.host.write (entry (s.heap.snapshot v)) }

/-- Counts up. -/
def counting (name : String) : Noting η Value :=
  .alter fun s =>
    let (n, host) := s.host.count name
    (.ofNat n, { s with host })

/-- The sum of the numbers of values, from left to right. -/
def sumOf (total : Float) : List Value → Noting η Float
  | [] => pure total
  | v :: rest => do
    let x ← Store.readingEndless (·.toNumber v)
    sumOf (total + x) rest

/-- An object that is its own `window`. -/
def windowObject (h : Heap) : Value × Heap :=
  let (o, h) := h.newObject .empty none
  (.object o, h.setOwn o "window" (.object o))

/-- Calls a function of the library. -/
def callFunction (name : String) (this : Value) (args : List Value) : Noting η Value := do
  let first := args.head?.getD .undefined
  match name with
  | "sum" => return .number (← sumOf 0.0 args)
  | "args" => return .array (← Store.making (·.newArray args.toArray))
  | "this" => return this
  | "getv" => Store.reading (·.getMember this "v")
  | "put" =>
    let key ← Store.readingEndless (·.text? first)
    let second := args.tail.head?.getD .undefined
    Store.changingIf (·.setMember this key second)
    return second
  | "fail" => throw (.callback ("fail " ++ (← Store.readingEndless (·.text? first))))
  | "log" =>
    logging .called first
    return first
  | "tick" => counting "tick"
  | "window" => Store.making windowObject
  | "getfn" => return .function (.intrinsic .functionConstructor)
  | _ => return first

/-- Applies a filter of the library. -/
def applyFilter (name : String) (args : List Value) : Noting η Value := do
  let input := args.head?.getD .undefined
  match name with
  | "upper" => return .string (← Store.readingEndless (·.text? input)).toUpper
  | "double" => return .number ((← Store.readingEndless (·.toNumber input)) * 2.0)
  | "args" => return .array (← Store.making (·.newArray args.toArray))
  | "undef" => return .undefined
  | "fail" =>
    throw (.callback ("filter failed on " ++ (← Store.readingEndless (·.text? input))))
  | "counted" =>
    logging .counted input
    return input
  | "flaky" =>
    let n ← Compute.alter fun s : Store (Notebook η) =>
      let (n, host) := s.host.count "flaky"
      (n, { s with host })
    if n = 1 then throw (.callback "not ready") else return input
  | "stamp" => counting "stamp"
  | _ => return input

/-- The functions and filters. -/
def library : Library (Notebook η) := ⟨callFunction, applyFilter⟩

/-- The filters, each under the name of its behaviour. -/
def filters : Record Filter :=
  .ofList <|
    (["upper", "double", "args", "undef", "fail", "counted", "flaky", "id"].map
      fun name => (name, ⟨name, false⟩)) ++
    (["stamp", "sticky"].map fun name => (name, ⟨name, true⟩))

end DataBinding.Script
