import DataBinding.Tree.Watcher

/-!
# Queued tasks

Work that waits in one of three queues of a tree: for the next pass of a digest, for the next
apply, or for the end of a digest.  Tasks are numbered in the order in which they are queued.
-/

namespace DataBinding

/-- The queues of a tree. -/
inductive Queue where
  | async
  | apply
  | postDigest
deriving DecidableEq, Repr

/-- What a task does: run a procedure of the host, call the listener of a group, announce a group
without members, end a one-time watch that has settled, or schedule the next apply again. -/
inductive Work (κ : Type) where
  | procedure (body : κ)
  | group (g : GroupId)
  | announcement (a : Nat)
  | settle (w : WatcherId)
  | rearm

/-- A task, and the scope it was queued on. -/
structure Task (κ : Type) where
  number : Nat
  scope : ScopeId
  work : Work κ

/-- The three queues.  The task that comes next is first. -/
structure Queues (κ : Type) where
  async : List (Task κ) := []
  apply : List (Task κ) := []
  postDigest : List (Task κ) := []
  next : Nat := 0

namespace Queues

variable {κ : Type}

/-- The tasks of a queue. -/
def tasks (qs : Queues κ) : Queue → List (Task κ)
  | .async => qs.async
  | .apply => qs.apply
  | .postDigest => qs.postDigest

/-- Replaces the tasks of a queue. -/
def setTasks (qs : Queues κ) (q : Queue) (tasks : List (Task κ)) : Queues κ :=
  match q with
  | .async => { qs with async := tasks }
  | .apply => { qs with apply := tasks }
  | .postDigest => { qs with postDigest := tasks }

/-- Puts a task at the end of a queue. -/
def push (qs : Queues κ) (q : Queue) (scope : ScopeId) (work : Work κ) : Queues κ :=
  { qs.setTasks q (qs.tasks q ++ [⟨qs.next, scope, work⟩]) with next := qs.next + 1 }

@[simp] theorem tasks_setTasks_self (qs : Queues κ) (q : Queue) (tasks : List (Task κ)) :
    (qs.setTasks q tasks).tasks q = tasks := by
  cases q <;> rfl

theorem tasks_setTasks_of_ne (qs : Queues κ) {q r : Queue} (h : r ≠ q) (tasks : List (Task κ)) :
    (qs.setTasks q tasks).tasks r = qs.tasks r := by
  cases q <;> cases r <;> simp_all [setTasks, Queues.tasks]

@[simp] theorem tasks_push_self (qs : Queues κ) (q : Queue) (scope : ScopeId) (work : Work κ) :
    (qs.push q scope work).tasks q = qs.tasks q ++ [⟨qs.next, scope, work⟩] := by
  cases q <;> rfl

theorem tasks_push_of_ne (qs : Queues κ) {q r : Queue} (h : r ≠ q) (scope : ScopeId)
    (work : Work κ) : (qs.push q scope work).tasks r = qs.tasks r := by
  have kept := qs.tasks_setTasks_of_ne h (qs.tasks q ++ [⟨qs.next, scope, work⟩])
  cases r <;> exact kept

end Queues

end DataBinding
