import DataBinding.Expression
import DataBinding.Tree.Collection
import DataBinding.Tree.Scope
import DataBinding.Value.Frozen

/-!
# Watchers

A watcher pairs something to observe with something to do when it changes, and keeps the value it
recorded last.  The procedures of the host are known by names of type `κ`.

How an expression is watched depends on what the compiler found out about it: a constant is
reported once, a one-time expression until its value has settled, and an expression with known
inputs is evaluated again only when one of them has changed.
-/

namespace DataBinding

/-- The name of a group watch within its tree. -/
abbrev GroupId := Nat

/-- The values of the inputs of an expression, and the value that it had with them. -/
structure Memo where
  inputs : List Value
  result : Value

/-- Whether the remembered result holds for these values of the inputs. -/
def Memo.covers (m : Memo) (inputs : List Value) : Bool :=
  m.inputs.length == inputs.length && (m.inputs.zip inputs).all fun (v, w) => v.same w

/-- What a watcher observes, and what it does about a change. -/
inductive WatchKind (κ : Type) where
  | procedure (watch listener : κ)
  | expression (e : Expression) (listener : κ)
  | constant (e : Expression) (listener : κ)
  | oneTime (e : Expression) (listener : κ) (reported : Value)
  | inputs (e : Expression) (listener : κ) (memo : Option Memo)
  | member (watch : κ) (group : GroupId) (index : Nat)
  | collection (watch listener : κ) (state : Collection)

namespace WatchKind

variable {κ : Type}

/-- How an expression is watched. -/
def ofExpression (e : Expression) (listener : κ) (byValue : Bool) : WatchKind κ :=
  if e.isConstant then .constant e listener
  else if e.oneTime then .oneTime e listener .undefined
  else if !e.inputs.isEmpty && !byValue then .inputs e listener none
  else .expression e listener

end WatchKind

/-- Whether a value of a one-time expression is final: it is defined, and if the expression is a
literal so is everything it holds. -/
def Heap.settled (h : Heap) (literal : Bool) (v : Value) : Bool :=
  match literal, v with
  | true, .array a => (h.items a).all (·.isDefined)
  | true, .object o => (h.record o).entries.all (·.2.isDefined)
  | _, v => v.isDefined

/-- A watcher.  `byValue` tells whether it compares contents, and `last` is the value it recorded
last; a watcher that never recorded one takes any value for a change. -/
structure Watcher (κ : Type) where
  scope : ScopeId
  kind : WatchKind κ
  byValue : Bool
  active : Bool := true
  last : Option Frozen := none

/-- A change that a watcher noticed. -/
structure Change where
  new : Value
  old : Value

/-- A group watch: several watchers that share a listener.  The listener gets two arrays, which
the group keeps up to date from one call to the next. -/
structure Group (κ : Type) where
  listener : κ
  newValues : Nat
  oldValues : Nat
  firstRun : Bool := true
  scheduled : Bool := false

/-- The only call of the listener of a group without members. -/
structure Announcement (κ : Type) where
  listener : κ
  cancelled : Bool := false

end DataBinding
