import DataBinding.Script.Snapshot
import DataBinding.Error
import DataBinding.Record

/-!
# The notebook of a script

What a script keeps for itself while it drives a scope tree: named registers and counters, names
for scopes and registrations, what it has done already, and a log.
-/

namespace DataBinding.Script

/-- A line of the log. -/
inductive LogEntry where
  | note (v : Snapshot)
  | called (v : Snapshot)
  | counted (v : Snapshot)
  | checked (id : String)
  | fired (id : String) (new old : Snapshot) (same : Bool) (scope : String)
  | ran (id scope : String)
  | delivered (id event : String) (args : Snapshot) (target : String) (current : Option String)
      (prevented : Bool)
  | phase (phase : Option Phase)
  | failed (e : Error)
  | caught (e : Error)

/-- The state of a script, with registrations of type `η`.  Watches and listeners are kept under
names of their own, and the newest line of the log comes first. -/
structure Notebook (η : Type) where
  registers : Record Value := .empty
  counters : Record Nat := .empty
  scopes : Record Nat := .empty
  scopeNames : List (Nat × String) := []
  watches : Record η := .empty
  listeners : Record η := .empty
  once : List String := []
  log : List LogEntry := []

namespace Notebook

variable {η : Type}

/-- The notebook at the start. -/
def empty : Notebook η := {}

/-- Adds a line to the log. -/
def write (n : Notebook η) (entry : LogEntry) : Notebook η := { n with log := entry :: n.log }

/-- Puts a value into a register. -/
def setRegister (n : Notebook η) (name : String) (v : Value) : Notebook η :=
  { n with registers := n.registers.set name v }

/-- Counts up, and what the counter then shows. -/
def count (n : Notebook η) (name : String) : Nat × Notebook η :=
  let next := (n.counters.get? name).getD 0 + 1
  (next, { n with counters := n.counters.set name next })

/-- Gives a scope a name, which no longer means any other. -/
def nameScope (n : Notebook η) (scope : Nat) (name : String) : Notebook η :=
  { n with scopes := n.scopes.set name scope, scopeNames := (scope, name) :: n.scopeNames }

/-- The name of a scope. -/
def scopeName (n : Notebook η) (scope : Nat) : String := (n.scopeNames.lookup scope).getD ""

end Notebook

end DataBinding.Script
