/-!
# Deferred jobs

Work that a tree leaves for later.  Jobs either wait until they are asked for and then run in the
order in which they were deferred, or they wait on a clock, each for its own time.
-/

namespace DataBinding

/-- The name of a deferred job. -/
abbrev JobId := Nat

/-- What a deferred job does: digest the whole tree if tasks wait for that, or apply the tasks that
wait for an apply. -/
inductive JobKind where
  | digest
  | apply
deriving DecidableEq, Repr

/-- A deferred job, and the time at which it is due. -/
structure Job where
  id : JobId
  due : Nat
  kind : JobKind
deriving Repr

/-- The deferred jobs in the order in which they were deferred.  `timed` tells whether a clock
drives them, and `now` is its time in milliseconds. -/
structure Deferral where
  timed : Bool
  now : Nat := 0
  jobs : List Job := []
  next : JobId := 0

namespace Deferral

/-- Defers a job. -/
def defer (d : Deferral) (delay : Nat) (kind : JobKind) : JobId × Deferral :=
  (d.next,
    { d with jobs := d.jobs ++ [⟨d.next, d.now + delay, kind⟩], next := d.next + 1 })

/-- Drops a job that has not begun. -/
def cancel (d : Deferral) (id : JobId) : Deferral :=
  { d with jobs := d.jobs.filter (·.id != id) }

/-- The number of jobs that wait to be asked for. -/
def pending (d : Deferral) : Nat := if d.timed then 0 else d.jobs.length

/-- Takes the job that was deferred first, if jobs wait to be asked for. -/
def takeFirst? (d : Deferral) : Option (Job × Deferral) :=
  match d.timed, d.jobs with
  | false, job :: rest => some (job, { d with jobs := rest })
  | _, _ => none

/-- The job that is due first; of several the one that was deferred first. -/
def earliest? : List Job → Option Job
  | [] => none
  | job :: rest =>
    match earliest? rest with
    | some other => if other.due < job.due then some other else some job
    | none => some job

/-- Takes the job that is due next, if that is no later than `deadline`, and moves the clock to its
time. -/
def takeDue? (d : Deferral) (deadline : Nat) : Option (Job × Deferral) :=
  match d.timed, earliest? d.jobs with
  | true, some job =>
    if job.due ≤ deadline then some (job, { d.cancel job.id with now := max d.now job.due })
    else none
  | _, _ => none

end Deferral

end DataBinding
