import DataBinding.Tree.Deferral
import DataBinding.Tree.Event
import DataBinding.Tree.Task

/-!
# The journal of a tree

A record of what a tree does, step by step.  Nothing that the tree does depends on it; it is what
statements about the order of things speak of.
-/

namespace DataBinding

/-- How a procedure of the host is called: to compute what a watcher observes, to be told of a
change, to run a task, to hear an event, or to run in the apply phase. -/
inductive Invocation where
  | watch (scope : ScopeId)
  | changed (scope : ScopeId) (change : Change)
  | task (scope : ScopeId)
  | event (e : EventId) (args : List Value)
  | body (scope : ScopeId)

/-- A step of a tree: a phase begins or ends, a pass begins, a watcher is checked, a task is queued
or begins, a deferred job begins, a procedure is called, the host is told of an error. -/
inductive Step (κ : Type) where
  | entered (phase : Phase)
  | left (phase : Phase)
  | pass (scope : ScopeId)
  | checked (w : WatcherId)
  | queued (q : Queue) (number : Nat)
  | started (q : Queue) (number : Nat)
  | ran (job : JobKind)
  | called (procedure : κ) (how : Invocation)
  | reported (e : Error)

end DataBinding
