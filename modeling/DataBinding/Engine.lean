import DataBinding.Tree

/-!
# The engine

The engine runs a scope tree: it evaluates expressions in scopes, calls the procedures of the host,
and hands their errors to the host.  What it does it does by routines, which are computations on
the state of the tree.

A procedure may itself ask the engine for anything.  So neither the depth to which procedures call
each other nor the length of a queue that they keep filling is bounded, and a routine without end
is told apart by `limit`: no loop takes more steps than that.
-/

namespace DataBinding

/-- A computation on a scope tree. -/
abbrev Routine (κ σ α : Type) : Type := Compute (Tree κ σ) α

/-- What a tree is run with: the functions and filters of the host, what the host does with an
error, how its procedures run, and the limit on loops. -/
structure Engine (κ σ : Type) where
  library : Library σ
  report : Error → σ → σ
  invoke : κ → Invocation → Routine κ σ Value
  limit : Nat

/-- A computation on the store of a tree. -/
def Routine.onStore {κ σ α : Type} (m : Compute (Store σ) α) : Routine κ σ α :=
  .within Tree.store (fun store t => { t with store }) m

/-- The expression of a source text, compiled with the tree's filters. -/
def Routine.parse {κ σ : Type} (source : String) : Routine κ σ Expression := do
  let e ← Compute.alter fun t : Tree κ σ =>
    let (e, compiler) := t.compiler.parse source
    (e, { t with compiler })
  .ofExcept e

namespace Engine

variable {κ σ : Type} (E : Engine κ σ)

/-! ## Calls and errors -/

/-- Calls a procedure of the host. -/
def call (procedure : κ) (how : Invocation) : Routine κ σ Value := do
  Compute.change (·.note (.called procedure how))
  E.invoke procedure how

/-- Hands an error to the host. -/
def reportError (e : Error) : Routine κ σ Unit :=
  .change fun t =>
    { t with store := { t.store with host := E.report e t.store.host } }.note (.reported e)

/-- Runs a routine and hands its error to the host. -/
def contained (m : Routine κ σ Unit) : Routine κ σ Unit := do
  match ← m.attempt with
  | .ok () => pure ()
  | .error e => E.reportError e

/-! ## Expressions -/

/-- The value of an expression in a scope. -/
def evaluate (s : ScopeId) (e : Expression) (locals : Option Value) : Routine κ σ Value := do
  let data ← Compute.read (·.data s)
  .onStore (e.eval E.library E.limit (.object data) locals)

/-- The values of the inputs of an expression in a scope. -/
def evaluateInputs (s : ScopeId) (e : Expression) : Routine κ σ (List Value) := do
  let data ← Compute.read (·.data s)
  e.inputs.mapM fun part => .onStore (e.evalPart part E.library E.limit (.object data) none)

/-- Compiles a source text and evaluates it in a scope. -/
def evaluateSource (s : ScopeId) (source : String) (locals : Option Value) :
    Routine κ σ Value := do
  E.evaluate s (← .parse source) locals

end Engine

end DataBinding
