import DataBinding.Tree.Scope

/-!
# Events

An event travels from scope to scope and is shown to the listeners of its name.  A listener can
keep a stoppable event from travelling on, and can ask that whatever the event announces be left
undone.
-/

namespace DataBinding

/-- The name of an event within its tree. -/
abbrev EventId := Nat

/-- A listener for events of one name. -/
structure Listener (κ : Type) where
  scope : ScopeId
  event : String
  procedure : κ
  active : Bool := true

/-- An event on its way: where it started, where it is, and what listeners asked for. -/
structure Event where
  name : String
  target : ScopeId
  stoppable : Bool
  current : Option ScopeId := none
  stopped : Bool := false
  prevented : Bool := false

namespace Event

/-- The event in a scope. -/
def enter (e : Event) (s : ScopeId) : Event := { e with current := some s }

/-- The event at the end of its way. -/
def finish (e : Event) : Event := { e with current := none }

/-- The event after a listener asked to stop it. -/
def stop (e : Event) : Event := if e.stoppable then { e with stopped := true } else e

/-- The event after a listener asked to prevent what it announces. -/
def prevent (e : Event) : Event := { e with prevented := true }

end Event

end DataBinding
