import DataBinding.Engine.Draining
import DataBinding.Engine.Traversal

/-!
# The digest

A digest checks the watchers of a scope and its descendants in passes until a pass finds nothing
dirty and no task waits for another pass.  It gives up when the passes that the configuration
allows are spent.

A pass goes through the scopes from parent to child, and through the watchers of each from the
newest to the oldest.  It ends early at the watcher that was the last one found dirty, when that is
found clean: all that follow were clean the last time and nothing has been found dirty since.

An apply runs a procedure and then digests the whole tree.
-/

namespace DataBinding.Engine

variable {κ σ : Type} (E : Engine κ σ)

/-! ## A pass -/

/-- Checks a watcher and has it react to a change. -/
def inspect (w : WatcherId) : Routine κ σ Findings := do
  match ← Compute.attempt (E.check w) with
  | .ok (some change) =>
    Compute.change ({ · with lastDirty := some w })
    E.contained (E.notify w change)
    return { dirty := true }
  | .ok none => return { ended := (← Compute.read (·.lastDirty)) == some w }
  | .error e =>
    E.reportError e
    return {}

/-- Inspects a watcher in its turn, unless it was taken away before. -/
def visitWatcher (w : WatcherId) : Routine κ σ Findings := do
  if ← Compute.read (·.isActive w) then E.inspect w else return {}

/-- Checks the watchers that a scope has at this moment. -/
def visitScope (s : ScopeId) : Routine κ σ Findings := do
  Routine.inOrder E.visitWatcher (← Compute.read fun t => (t.scope s).watchers)

/-- One pass from a scope down; the answer tells whether anything was dirty. -/
def pass (s : ScopeId) : Routine κ σ Bool := do
  Compute.change (·.note (.pass s))
  return (← Routine.walk E.visitScope E.limit s).dirty

/-! ## Phases -/

/-- Begins a phase, unless one is active. -/
def enter (phase : Phase) : Routine κ σ Unit := do
  let t ← Compute.ofExcept (← Compute.read (·.enter phase))
  Compute.change fun _ => t

/-- Ends a phase. -/
def leave (phase : Phase) : Routine κ σ Unit := Compute.change (·.leave phase)

/-! ## The loop -/

/-- Passes until nothing is dirty and no task waits, with so many more passes allowed after the
first; the answer tells whether that was enough. -/
def passes (s : ScopeId) (allowed : Nat) : Routine κ σ Bool := do
  E.drain .async
  let dirty ← E.pass s
  if !dirty && (← Compute.read (·.queues.async.isEmpty)) then return true
  else
    match allowed with
    | 0 => return false
    | allowed + 1 => passes s allowed

/-- Digests a scope and its descendants. -/
def digest (s : ScopeId) : Routine κ σ Unit := do
  enter .digest
  Compute.change fun t => { t with lastDirty := none }.cancelApply
  E.drain .apply
  let ttl ← Compute.read (·.config.digestTtl)
  let settled ← E.passes s ttl
  leave .digest
  if settled then E.drain .postDigest else throw (.divergence ttl)

/-- Runs a body in the apply phase and then digests the whole tree, also if the body fails.  An
error of the digest takes precedence. -/
def apply (body : Routine κ σ Value) : Routine κ σ Value := do
  enter .apply
  let result ← Compute.attempt body
  leave .apply
  E.digest rootId
  .ofExcept result

end DataBinding.Engine
