import DataBinding.Engine.Digest

/-!
# Running deferred jobs

A deferred digest runs only if tasks still wait for a pass.  A deferred apply runs unless a digest
has taken its tasks already; if it comes while a phase is active it is put off to the end of the
digest.
-/

namespace DataBinding.Engine

variable {κ σ : Type} (E : Engine κ σ)

/-- Runs a deferred digest. -/
def runDigest : Routine κ σ Unit := do
  if ← Compute.read (·.queues.async.isEmpty) then pure ()
  else E.contained (E.digest rootId)

/-- Applies the tasks that wait for an apply. -/
def applyQueued : Routine κ σ Value :=
  E.apply do
    E.drain .apply
    return .undefined

/-- Runs a deferred apply. -/
def runApply : Routine κ σ Unit := do
  let pending ← Compute.alter fun t : Tree κ σ =>
    (t.applyFlush.isSome, { t with applyFlush := none })
  if pending then
    match ← Compute.attempt E.applyQueued with
    | .ok _ => pure ()
    | .error (.busy _) => Compute.change (·.enqueue .postDigest rootId .rearm)
    | .error e => E.reportError e

/-- Runs a deferred job. -/
def runJob : JobKind → Routine κ σ Unit
  | .digest => E.runDigest
  | .apply => E.runApply

/-- Runs jobs that `next` takes until it takes none, in at most so many steps; the answer is how
many ran. -/
def runJobs (next : Tree κ σ → Option (Job × Tree κ σ)) : Nat → Routine κ σ Nat
  | 0 => .endless
  | limit + 1 => do
    match ← Compute.alter? next with
    | none => return 0
    | some job =>
      E.runJob job.kind
      return (← runJobs next limit) + 1

/-- Runs the jobs that wait to be asked for; the answer is how many ran. -/
def flush : Routine κ σ Nat := E.runJobs Tree.takeFirstJob? E.limit

/-- Lets time pass and runs the jobs that become due. -/
def advance (milliseconds : Nat) : Routine κ σ Unit := do
  let deadline ← Compute.read (·.deferral.now + milliseconds)
  discard <| E.runJobs (·.takeDueJob? deadline) E.limit
  Compute.change (·.setClock deadline)

end DataBinding.Engine
