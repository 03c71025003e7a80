import DataBinding.Engine.Watching

/-!
# Running queued tasks

A queue is drained from the front until it is empty; tasks that are queued meanwhile are run as
well.  The error of a task goes to the host and does not keep the next one from running.
-/

namespace DataBinding.Engine

variable {κ σ : Type} (E : Engine κ σ)

/-- Calls the listener of a group. -/
def callGroup (s : ScopeId) (g : GroupId) : Routine κ σ Unit := do
  match ← Compute.read fun t : Tree κ σ => t.groups[g]? with
  | none => pure ()
  | some group =>
    let change ← Compute.alter (·.groupChange g group)
    let result ← Compute.attempt (E.tell group.listener s change)
    Compute.change (·.unscheduleGroup g)
    .ofExcept result

/-- Calls the listener of a group without members, unless the group was taken back. -/
def announce (s : ScopeId) (a : Nat) : Routine κ σ Unit := do
  match ← Compute.read fun t : Tree κ σ => t.announcements[a]? with
  | none => pure ()
  | some announcement =>
    if announcement.cancelled then pure ()
    else
      let blank ← Routine.onStore (Store.making (·.newArray #[]))
      E.tell announcement.listener s ⟨.array blank, .array blank⟩

/-- Does the work of a task. -/
def perform (s : ScopeId) : Work κ → Routine κ σ Unit
  | .procedure body => do
    discard <| E.call body (.task s)
  | .group g => E.callGroup s g
  | .announcement a => E.announce s a
  | .settle w => Compute.change (·.settle w)
  | .rearm => Compute.change (·.armApply)

/-- Drains a queue, in at most so many steps. -/
def drainWithin (q : Queue) : Nat → Routine κ σ Unit
  | 0 => .endless
  | limit + 1 => do
    match ← Compute.alter? (·.dequeue? q) with
    | none => pure ()
    | some task =>
      E.contained (E.perform task.scope task.work)
      drainWithin q limit

/-- Drains a queue. -/
def drain (q : Queue) : Routine κ σ Unit := E.drainWithin q E.limit

end DataBinding.Engine
