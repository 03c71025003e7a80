import DataBinding.Engine.Traversal
import DataBinding.Tree.Registration

/-!
# Delivering events

An emitted event goes from its scope up to the root and can be stopped on the way; a broadcast goes
down to all descendants and cannot.  In each scope the listeners that are registered when the event
arrives hear it in the order of their registration, except those taken away before their turn.

The destruction of a scope is announced by a broadcast.
-/

namespace DataBinding.Engine

variable {κ σ : Type} (E : Engine κ σ)

/-- Has a listener hear an event, unless it was taken away before. -/
def hear (e : EventId) (args : List Value) (l : ListenerId) : Routine κ σ Unit := do
  match ← Compute.read fun t : Tree κ σ => t.listeners[l]? with
  | some { procedure, active := true, .. } =>
    E.contained do
      discard <| E.call procedure (.event e args)
  | _ => pure ()

/-- Has several listeners hear an event. -/
def hearAll (e : EventId) (args : List Value) : List ListenerId → Routine κ σ Unit
  | [] => pure ()
  | l :: rest => do
    E.hear e args l
    hearAll e args rest

/-- Delivers an event in a scope. -/
def deliver (e : EventId) (name : String) (args : List Value) (s : ScopeId) :
    Routine κ σ Unit := do
  Compute.change (·.modifyEvent e (·.enter s))
  E.hearAll e args (← Compute.read (·.listenersFor s name))

/-- Delivers an event in a scope and its ancestors, until it is stopped. -/
def climb (e : EventId) (name : String) (args : List Value) (s : ScopeId) :
    Routine κ σ Unit := do
  E.deliver e name args s
  if ← Compute.read fun t : Tree κ σ => (t.events[e]?).any (·.stopped) then pure ()
  else
    match ← Compute.read fun t : Tree κ σ => (t.scope s).parent with
    | some p => if p < s then climb e name args p else pure ()
    | none => pure ()
termination_by s

/-- Makes an event and sends it on its way. -/
def send (target : ScopeId) (name : String) (stoppable : Bool)
    (travel : EventId → Routine κ σ Unit) : Routine κ σ EventId := do
  let e ← Compute.alter fun t : Tree κ σ =>
    (t.events.size, { t with events := t.events.push { name, target, stoppable } })
  travel e
  Compute.change (·.modifyEvent e (·.finish))
  return e

/-- Emits an event. -/
def emit (s : ScopeId) (name : String) (args : List Value) : Routine κ σ EventId :=
  send s name true fun e => E.climb e name args s

/-- Broadcasts an event. -/
def broadcast (s : ScopeId) (name : String) (args : List Value) : Routine κ σ EventId :=
  send s name false fun e => do
    let visit := fun s => do
      E.deliver e name args s
      return {}
    discard <| Routine.walk visit E.limit s

/-- The event that announces the destruction of a scope. -/
def destroyEvent : String := "$destroy"

/-- Destroys a scope.  To do so again has no effect. -/
def destroy (s : ScopeId) : Routine κ σ Unit := do
  if ← Compute.read fun t => (t.scope s).isDestroyed then pure ()
  else
    Compute.change (·.beginDestroy s)
    discard <| E.broadcast s destroyEvent []
    Compute.change (·.tearDown s)

end DataBinding.Engine
