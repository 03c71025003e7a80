import DataBinding.Tree

/-!
# Scheduling

How work is queued on a tree and how the tree is woken up for it.  A task for the next pass that
is queued while the tree is idle, as the first of its queue, defers a digest.  Tasks for the next
apply share one deferred job, which `applyFlush` names while it waits.
-/

namespace DataBinding.Tree

variable {κ σ : Type}

/-! ## Phases -/

/-- Begins a phase, unless one is active. -/
def enter (t : Tree κ σ) (phase : Phase) : Except Error (Tree κ σ) :=
  match t.phase with
  | some active => .error (.busy active)
  | none => .ok ({ t with phase := some phase }.note (.entered phase))

/-- Ends the active phase. -/
def leave (t : Tree κ σ) (phase : Phase) : Tree κ σ := { t with phase := none }.note (.left phase)

theorem enter_of_busy {t : Tree κ σ} {active : Phase} (h : t.phase = some active)
    (phase : Phase) : t.enter phase = .error (.busy active) := by
  rw [enter, h]

theorem phase_of_enter {t u : Tree κ σ} {phase : Phase} (h : t.enter phase = .ok u) :
    t.phase = none ∧ u.phase = some phase := by
  unfold enter at h
  split at h
  · cases h
  · next idle =>
    cases h
    exact ⟨idle, rfl⟩

@[simp] theorem phase_leave (t : Tree κ σ) (phase : Phase) : (t.leave phase).phase = none := rfl

/-! ## Queues -/

/-- Puts a task at the end of a queue. -/
def enqueue (t : Tree κ σ) (q : Queue) (s : ScopeId) (work : Work κ) : Tree κ σ :=
  { t with queues := t.queues.push q s work }.note (.queued q t.queues.next)

/-- Takes the first task of a queue. -/
def dequeue? (t : Tree κ σ) (q : Queue) : Option (Task κ × Tree κ σ) :=
  match t.queues.tasks q with
  | [] => none
  | task :: rest =>
    some (task, { t with queues := t.queues.setTasks q rest }.note (.started q task.number))

@[simp] theorem tasks_enqueue_self (t : Tree κ σ) (q : Queue) (s : ScopeId) (work : Work κ) :
    (t.enqueue q s work).queues.tasks q = t.queues.tasks q ++ [⟨t.queues.next, s, work⟩] :=
  Queues.tasks_push_self ..

theorem tasks_enqueue_of_ne (t : Tree κ σ) {q r : Queue} (h : r ≠ q) (s : ScopeId)
    (work : Work κ) : (t.enqueue q s work).queues.tasks r = t.queues.tasks r :=
  Queues.tasks_push_of_ne _ h ..

/-- A queue gives out its first task and keeps the others. -/
theorem tasks_of_dequeue? {t u : Tree κ σ} {q : Queue} {task : Task κ}
    (h : t.dequeue? q = some (task, u)) : t.queues.tasks q = task :: u.queues.tasks q := by
  unfold dequeue? at h
  split at h
  · cases h
  · next first rest hq =>
    cases h
    rw [hq]
    exact congrArg _ (Queues.tasks_setTasks_self ..).symm

theorem tasks_of_dequeue?_of_ne {t u : Tree κ σ} {q r : Queue} {task : Task κ}
    (h : t.dequeue? q = some (task, u)) (hr : r ≠ q) : u.queues.tasks r = t.queues.tasks r := by
  unfold dequeue? at h
  split at h
  · cases h
  · cases h
    exact Queues.tasks_setTasks_of_ne _ hr _

theorem dequeue?_eq_none_iff (t : Tree κ σ) (q : Queue) :
    t.dequeue? q = none ↔ t.queues.tasks q = [] := by
  unfold dequeue?
  split
  · next h => simp [h]
  · next h => simp [h]

/-! ## Waking up -/

/-- Queues a task for the next pass, and defers a digest if nothing else will lead to one. -/
def queueAsync (t : Tree κ σ) (s : ScopeId) (work : Work κ) : Tree κ σ :=
  let woken := t.enqueue .async s work
  if t.phase.isNone && t.queues.async.isEmpty then
    { woken with deferral := (woken.deferral.defer t.config.evalAsyncDelay .digest).2 }
  else woken

/-- Defers the next apply, unless it is deferred already or no task waits for it. -/
def armApply (t : Tree κ σ) : Tree κ σ :=
  if t.applyFlush.isSome || t.queues.apply.isEmpty then t
  else
    let (id, deferral) := t.deferral.defer t.config.applyAsyncDelay .apply
    { t with deferral, applyFlush := some id }

/-- Queues a task for the next apply. -/
def queueApply (t : Tree κ σ) (s : ScopeId) (work : Work κ) : Tree κ σ :=
  (t.enqueue .apply s work).armApply

/-- Drops the deferred apply. -/
def cancelApply (t : Tree κ σ) : Tree κ σ :=
  match t.applyFlush with
  | some id => { t with applyFlush := none, deferral := t.deferral.cancel id }
  | none => t

/-! ## Deferred jobs -/

/-- Takes the deferred job that was deferred first. -/
def takeFirstJob? (t : Tree κ σ) : Option (Job × Tree κ σ) :=
  t.deferral.takeFirst?.map fun (job, deferral) => (job, { t with deferral }.note (.ran job.kind))

/-- Takes the deferred job that is due next, if it is due by `deadline`. -/
def takeDueJob? (t : Tree κ σ) (deadline : Nat) : Option (Job × Tree κ σ) :=
  (t.deferral.takeDue? deadline).map fun (job, deferral) =>
    (job, { t with deferral }.note (.ran job.kind))

/-- Moves the clock on. -/
def setClock (t : Tree κ σ) (now : Nat) : Tree κ σ :=
  { t with deferral := { t.deferral with now := max t.deferral.now now } }

end DataBinding.Tree
