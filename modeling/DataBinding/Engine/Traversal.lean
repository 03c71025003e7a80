import DataBinding.Engine

/-!
# Walking down the tree

A walk visits a scope and all its descendants, each parent before its children, until a visit asks
to end it.  The children of a scope are those that it has after it was visited.
-/

namespace DataBinding

/-- What a visit finds: whether anything was dirty, and whether to end the walk. -/
structure Findings where
  dirty : Bool := false
  ended : Bool := false
deriving DecidableEq, Repr

namespace Routine

variable {κ σ : Type} {ι : Type}

/-- One visit after another, until one asks to end. -/
def andThen (first second : Routine κ σ Findings) : Routine κ σ Findings := do
  let a ← first
  if a.ended then return a
  else
    let b ← second
    return ⟨a.dirty || b.dirty, b.ended⟩

/-- Visits in order, until one asks to end. -/
def inOrder (visit : ι → Routine κ σ Findings) : List ι → Routine κ σ Findings
  | [] => pure {}
  | x :: rest => (visit x).andThen (inOrder visit rest)

/-- Walks down from a scope, at most so many levels. -/
def walk (visit : ScopeId → Routine κ σ Findings) : Nat → ScopeId → Routine κ σ Findings
  | 0, _ => .endless
  | depth + 1, s =>
    (visit s).andThen do
      inOrder (walk visit depth) (← Compute.read fun t => (t.scope s).children)

end Routine

end DataBinding
