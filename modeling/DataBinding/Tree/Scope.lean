/-!
# Scopes

A scope is a node of the scope tree.  It has an object that holds its properties, children,
watchers and event listeners.  A scope whose destruction has begun takes no new listeners; once it
is gone it takes no new watchers either.
-/

namespace DataBinding

/-- The name of a scope within its tree.  Scopes are numbered as they are made, so a parent has a
smaller number than its children. -/
abbrev ScopeId := Nat

/-- The name of a watcher within its tree. -/
abbrev WatcherId := Nat

/-- The name of an event listener within its tree. -/
abbrev ListenerId := Nat

/-- How far the destruction of a scope has come. -/
inductive Life where
  | alive
  | leaving
  | gone
deriving DecidableEq, Repr

/-- A node of the tree.  Its watchers are listed newest first, its children and listeners oldest
first. -/
structure Scope where
  data : Nat
  parent : Option ScopeId
  isolated : Bool
  children : List ScopeId := []
  watchers : List WatcherId := []
  listeners : List ListenerId := []
  life : Life := .alive

namespace Scope

/-- Whether the destruction of the scope has begun. -/
def isDestroyed (s : Scope) : Bool := s.life ≠ .alive

/-- The scope with a watcher more, unless it is gone. -/
def addWatcher (s : Scope) (w : WatcherId) : Scope :=
  if s.life = .gone then s else { s with watchers := w :: s.watchers }

/-- The scope without a watcher. -/
def removeWatcher (s : Scope) (w : WatcherId) : Scope :=
  { s with watchers := s.watchers.filter (· != w) }

/-- The scope with a listener more, unless its destruction has begun. -/
def addListener (s : Scope) (l : ListenerId) : Scope :=
  if s.life = .alive then { s with listeners := s.listeners ++ [l] } else s

/-- The scope without a listener. -/
def removeListener (s : Scope) (l : ListenerId) : Scope :=
  { s with listeners := s.listeners.filter (· != l) }

/-- The scope with a child more. -/
def addChild (s : Scope) (child : ScopeId) : Scope :=
  { s with children := s.children ++ [child] }

/-- The scope without a child. -/
def removeChild (s : Scope) (child : ScopeId) : Scope :=
  { s with children := s.children.filter (· != child) }

/-- What is left of a scope after its destruction. -/
def tornDown (s : Scope) : Scope := { s with watchers := [], listeners := [], life := .gone }

end Scope

end DataBinding
