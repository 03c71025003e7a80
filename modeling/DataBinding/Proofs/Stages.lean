import Mathlib.Logic.Relation
import DataBinding.Proofs.Jobs
import DataBinding.Proofs.Rounds

/-!
# The stages of digests and applies

A digest first runs the tasks that wait for an apply, then goes round, and then runs the tasks for
its end; an apply runs its body, and then digests.  A situation of a run is the tree at that time
together with the stages of the digests and applies that were accepted and have not returned yet
(`Situation`), and `Situation.Advance` says which situation can be next.  Where a call may begin is
left to a relation `begins`: it is `Host.Opens` for the calls of a host.  Every run goes through
situations in this way (`Host.reaches_of_run`), whatever the procedures of the host do.

What happens without the host in between is one advance: a deferred apply that is taken from its
list begins or is put off, a task is queued for the apply and has the apply deferred.  So every
situation is one in which a procedure of the host may be running, and every one in which it may be
is among them.
-/

namespace DataBinding

open Compute (Leads runOn runOn_bind_cases)

variable {κ σ α : Type}

/-! ## Elementary changes -/

namespace Tree

/-- A single change of a tree that takes neither a task nor a job, and is no part of a digest or an
apply but the check of a watcher. -/
inductive Touch : Tree κ σ → Tree κ σ → Prop
  | act {t u : Tree κ σ} (h : t.Act u) (happly : u.queues.apply = t.queues.apply) : Touch t u
  | queueApply (t : Tree κ σ) (s : ScopeId) (work : Work κ) : Touch t (t.queueApply s work)
  | beginDestroy (t : Tree κ σ) (s : ScopeId) : Touch t (t.beginDestroy s)
  | tearDown (t : Tree κ σ) (s : ScopeId) : Touch t (t.tearDown s)
  | checked (t : Tree κ σ) (w : WatcherId) : Touch t (t.note (.checked w))
  | setKind (t : Tree κ σ) (w : WatcherId) (kind : WatchKind κ) : Touch t (t.setKind w kind)
  | record {t u : Tree κ σ} {w : WatcherId} {new : Value} {change : Option DataBinding.Change}
    (h : t.record w new = some (change, u)) : Touch t u
  | dirty (t : Tree κ σ) (w : WatcherId) : Touch t { t with lastDirty := some w }
  | clock (t : Tree κ σ) (now : ℕ) : Touch t (t.setClock now)

variable {t u : Tree κ σ}

lemma queueApply_eq (t : Tree κ σ) (s : ScopeId) (work : Work κ) :
    ∃ deferral applyFlush,
      t.queueApply s work = { t.enqueue .apply s work with deferral, applyFlush } :=
  armApply_eq (t.enqueue .apply s work)

lemma journal_armApply (t : Tree κ σ) : t.armApply.journal = t.journal := by
  obtain ⟨_, _, h⟩ := armApply_eq t
  rw [h]

lemma Touch.journal (h : t.Touch u) :
    u.journal = t.journal ∨
      ∃ step, (step.ofRequest = true ∨ ∃ w, step = .checked w) ∧ u.journal = step :: t.journal := by
  cases h with
  | act h => exact h.journal.imp_right fun ⟨step, hstep, h⟩ => ⟨step, .inl hstep, h⟩
  | queueApply s work => exact .inr ⟨_, .inl rfl, journal_armApply (t.enqueue .apply s work)⟩
  | tearDown s => exact .inl (journal_tearDown t s)
  | checked w => exact .inr ⟨_, .inr ⟨w, rfl⟩, rfl⟩
  | record h =>
    obtain ⟨_, _, rfl⟩ := eq_of_record h
    exact .inl rfl
  | _ => exact .inl rfl

lemma Touch.phase (h : t.Touch u) : u.phase = t.phase := by
  cases h with
  | act h => exact h.phase
  | queueApply s work =>
    obtain ⟨_, _, h⟩ := queueApply_eq t s work
    rw [h]
    rfl
  | tearDown s => exact phase_tearDown t s
  | record h => exact phase_of_record h
  | _ => rfl

end Tree

/-- Whether a step has the host act: a procedure is called, or a task is started. -/
def Step.ofHost : Step κ → Bool
  | .called _ _ | .started _ _ => true
  | _ => false

/-! ## Situations -/

/-- The stage of an accepted call that has not returned: a digest runs the tasks that wait for an
apply, goes round and has passed already or not, or is past its loop; the body of an apply that was
asked for runs, or the body of the deferred one, or the apply is past its body. -/
inductive Stage where
  | draining (s : ScopeId)
  | looping (s : ScopeId) (passed : Bool)
  | finishing (s : ScopeId)
  | applying
  | flushing
  | applied
deriving DecidableEq, Repr

namespace Stage

/-- The phase of a stage. -/
def phase? : Stage → Option Phase
  | .draining _ | .looping _ _ => some .digest
  | .applying | .flushing => some .apply
  | .finishing _ | .applied => none

/-- The queue whose tasks run in a stage. -/
def queue? : Stage → Option Queue
  | .draining _ | .flushing => some .apply
  | .looping _ _ => some .async
  | .finishing _ => some .postDigest
  | .applying | .applied => none

/-- Whether a stage is the body of an apply. -/
def isBody : Stage → Bool
  | .applying | .flushing => true
  | _ => false

end Stage

/-- A situation of a run: the stages of the accepted calls that have not returned, the last call
first, and the tree. -/
structure Situation (κ σ : Type) where
  stages : List Stage
  tree : Tree κ σ

namespace Situation

/-- What can be the next situation.  A call begins where it may. -/
inductive Advance (begins : Stage → Tree κ σ → Prop) : Situation κ σ → Situation κ σ → Prop
  | touch {stages : List Stage} {t u : Tree κ σ} (h : t.Touch u) :
    Advance begins ⟨stages, t⟩ ⟨stages, u⟩
  | runDigest {stages : List Stage} {t u : Tree κ σ} {job : Job} (h : t.TakesJob job u)
    (hkind : job.kind = .digest) : Advance begins ⟨stages, t⟩ ⟨stages, u⟩
  | skipFlush {stages : List Stage} {t u : Tree κ σ} {job : Job} (h : t.TakesJob job u)
    (hkind : job.kind = .apply) (hflush : t.applyFlush = none) :
    Advance begins ⟨stages, t⟩ ⟨stages, u⟩
  | postponeFlush {stages : List Stage} {t u : Tree κ σ} {job : Job} (h : t.TakesJob job u)
    (hkind : job.kind = .apply) :
    Advance begins ⟨stages, t⟩
      ⟨stages, { u with applyFlush := none }.enqueue .postDigest rootId .rearm⟩
  | beginFlush {stages : List Stage} {t u : Tree κ σ} {job : Job} (h : t.TakesJob job u)
    (hkind : job.kind = .apply) (hidle : t.phase = none)
    (hbegins : begins .flushing { u with applyFlush := none }) :
    Advance begins ⟨stages, t⟩ ⟨.flushing :: stages, { u with applyFlush := none }.entering .apply⟩
  | start {stage : Stage} {stages : List Stage} {t u : Tree κ σ} {q : Queue} {task : Task κ}
    (hstage : stage.queue? = some q) (h : t.dequeue? q = some (task, u))
    (hwork : task.work ≠ .rearm) :
    Advance begins ⟨stage :: stages, t⟩ ⟨stage :: stages, u⟩
  | rearm {stage : Stage} {stages : List Stage} {t u : Tree κ σ} {q : Queue} {task : Task κ}
    (hstage : stage.queue? = some q) (h : t.dequeue? q = some (task, u))
    (hwork : task.work = .rearm) :
    Advance begins ⟨stage :: stages, t⟩ ⟨stage :: stages, u.armApply⟩
  | beginDigest {stages : List Stage} {t : Tree κ σ} {s : ScopeId} (hidle : t.phase = none)
    (hbegins : begins (.draining s) t) :
    Advance begins ⟨stages, t⟩ ⟨.draining s :: stages, t.begun⟩
  | beginLoop {stages : List Stage} {t : Tree κ σ} {s : ScopeId} (hempty : t.queues.apply = []) :
    Advance begins ⟨.draining s :: stages, t⟩ ⟨.looping s false :: stages, t⟩
  | pass {stages : List Stage} {t : Tree κ σ} {s : ScopeId} {passed : Bool} :
    Advance begins ⟨.looping s passed :: stages, t⟩ ⟨.looping s true :: stages, t.note (.pass s)⟩
  | endLoop {stages : List Stage} {t : Tree κ σ} {s : ScopeId} :
    Advance begins ⟨.looping s true :: stages, t⟩ ⟨.finishing s :: stages, t.leave .digest⟩
  | endDigest {stages : List Stage} {t : Tree κ σ} {s : ScopeId} :
    Advance begins ⟨.finishing s :: stages, t⟩ ⟨stages, t⟩
  | beginApply {stages : List Stage} {t : Tree κ σ} (hidle : t.phase = none)
    (hbegins : begins .applying t) :
    Advance begins ⟨stages, t⟩ ⟨.applying :: stages, t.entering .apply⟩
  | endBody {stage : Stage} {stages : List Stage} {t : Tree κ σ} (hbody : stage.isBody = true)
    (hbegins : begins (.draining rootId) (t.leave .apply)) :
    Advance begins ⟨stage :: stages, t⟩
      ⟨.draining rootId :: .applied :: stages, (t.leave .apply).begun⟩
  | endApply {stages : List Stage} {t : Tree κ σ} :
    Advance begins ⟨.applied :: stages, t⟩ ⟨stages, t⟩

/-- The second situation can come after the first, at once or after others. -/
abbrev Reaches (begins : Stage → Tree κ σ → Prop) : Situation κ σ → Situation κ σ → Prop :=
  Relation.ReflTransGen (Advance begins)

/-! ## Phases -/

variable {begins : Stage → Tree κ σ → Prop} {m m' : Situation κ σ}

/-- One stage has a phase if the tree is in that phase, and none has if the tree is in none. -/
def Agrees (m : Situation κ σ) : Prop := m.stages.filterMap Stage.phase? = m.tree.phase.toList

/-- A stage with a phase is the only one, and the tree is in its phase. -/
lemma Agrees.of_phase {stage : Stage} {stages : List Stage} {t : Tree κ σ} {phase : Phase}
    (hm : Agrees ⟨stage :: stages, t⟩) (hphase : stage.phase? = some phase) :
    t.phase = some phase ∧ stages.filterMap Stage.phase? = [] := by
  have hcons : phase :: stages.filterMap Stage.phase? = t.phase.toList :=
    (List.filterMap_cons_some hphase).symm.trans hm
  cases ht : t.phase with
  | none =>
    rw [ht] at hcons
    cases hcons
  | some active =>
    rw [ht] at hcons
    obtain ⟨rfl, hnil⟩ := List.cons.inj hcons
    exact ⟨rfl, hnil⟩

lemma Agrees.of_phase_eq {stages : List Stage} {t u : Tree κ σ} (hm : Agrees ⟨stages, t⟩)
    (h : u.phase = t.phase) : Agrees ⟨stages, u⟩ :=
  hm.trans (congrArg Option.toList h.symm)

/-- In a phase that begins when there is none, the stage that has it is the only one. -/
lemma Agrees.push {stage : Stage} {stages : List Stage} {t u : Tree κ σ} {phase : Phase}
    (hm : Agrees ⟨stages, t⟩) (hidle : t.phase = none) (hstage : stage.phase? = some phase)
    (hu : u.phase = some phase) : Agrees ⟨stage :: stages, u⟩ := by
  have hnone : stages.filterMap Stage.phase? = [] := hm.trans (congrArg Option.toList hidle)
  rw [Agrees, List.filterMap_cons_some hstage, hnone, hu]
  rfl

/-- Every advance keeps the stages and the phase of the tree in agreement. -/
theorem Advance.agrees (h : Advance begins m m') (hm : m.Agrees) : m'.Agrees := by
  cases h with
  | touch h => exact hm.of_phase_eq h.phase
  | runDigest h => exact hm.of_phase_eq h.phase
  | skipFlush h => exact hm.of_phase_eq h.phase
  | postponeFlush h => exact hm.of_phase_eq h.phase
  | beginFlush _ _ hidle => exact hm.push hidle rfl rfl
  | start _ h => exact hm.of_phase_eq (phase_of_dequeue? h)
  | rearm _ h =>
    exact hm.of_phase_eq ((Tree.Act.armApply _).phase.trans (phase_of_dequeue? h))
  | beginDigest hidle => exact hm.push hidle rfl (Engine.phase_begun _)
  | beginLoop => exact hm
  | pass => exact hm
  | endLoop => exact (hm.of_phase rfl).2
  | endDigest => exact hm
  | beginApply hidle => exact hm.push hidle rfl rfl
  | @endBody stage stages t hbody _ =>
    obtain ⟨phase, hphase⟩ : ∃ phase, stage.phase? = some phase := by
      cases stage <;> first | exact ⟨_, rfl⟩ | cases hbody
    have hnone : stages.filterMap Stage.phase? = [] := (hm.of_phase hphase).2
    refine Agrees.push (t := t.leave .apply) ?_ rfl rfl (Engine.phase_begun _)
    exact hnone
  | endApply => exact hm

/-- What every advance preserves holds in all situations that are reached. -/
lemma Reaches.preserves {P : Situation κ σ → Prop}
    (hP : ∀ {m m'}, Advance begins m m' → P m → P m') (h : Reaches begins m m') (hm : P m) :
    P m' := by
  induction h with
  | refl => exact hm
  | tail _ hadvance ih => exact hP hadvance ih

lemma Reaches.agrees (h : Reaches begins m m') (hm : m.Agrees) : m'.Agrees :=
  h.preserves Advance.agrees hm

/-! ## The journal -/

/-- An advance notes a few steps.  If the call of a procedure is among them it is the only one, and
so is the start of a task, which the last call has run. -/
lemma Advance.journal (h : Advance begins m m') :
    ∃ steps, m'.tree.journal = steps ++ m.tree.journal ∧
      ((∀ step ∈ steps, step.ofHost = false) ∨
        (∃ procedure how, steps = [.called procedure how]) ∨
        ∃ q number, steps = [.started q number] ∧ ∃ stage stages, stage.queue? = some q ∧
          m.stages = stage :: stages ∧ m'.stages = stage :: stages) := by
  cases h with
  | touch h =>
    rcases h.journal with h | ⟨step, hstep, h⟩
    · exact ⟨[], h, .inl nofun⟩
    · refine ⟨[step], h, ?_⟩
      cases step with
      | called procedure how => exact .inr (.inl ⟨procedure, how, rfl⟩)
      | started => rcases hstep with hstep | ⟨_, hstep⟩ <;> cases hstep
      | _ => exact .inl (by simp [Step.ofHost])
  | runDigest h =>
    obtain ⟨_, -, rfl⟩ := h.takes
    exact ⟨[_], rfl, .inl (by simp [Step.ofHost])⟩
  | skipFlush h =>
    obtain ⟨_, -, rfl⟩ := h.takes
    exact ⟨[_], rfl, .inl (by simp [Step.ofHost])⟩
  | postponeFlush h =>
    obtain ⟨_, -, rfl⟩ := h.takes
    exact ⟨[_, _], rfl, .inl (by simp [Step.ofHost])⟩
  | beginFlush h =>
    obtain ⟨_, -, rfl⟩ := h.takes
    exact ⟨[_, _], rfl, .inl (by simp [Step.ofHost])⟩
  | start hstage h =>
    obtain ⟨_, rfl⟩ := Tree.eq_of_dequeue? h
    exact ⟨[_], rfl, .inr (.inr ⟨_, _, rfl, _, _, hstage, rfl, rfl⟩)⟩
  | rearm hstage h =>
    obtain ⟨_, rfl⟩ := Tree.eq_of_dequeue? h
    exact ⟨[_], Tree.journal_armApply _, .inr (.inr ⟨_, _, rfl, _, _, hstage, rfl, rfl⟩)⟩
  | beginDigest => exact ⟨[_], Engine.journal_begun _, .inl (by simp [Step.ofHost])⟩
  | beginLoop => exact ⟨[], rfl, .inl nofun⟩
  | pass => exact ⟨[_], rfl, .inl (by simp [Step.ofHost])⟩
  | endLoop => exact ⟨[_], rfl, .inl (by simp [Step.ofHost])⟩
  | endDigest => exact ⟨[], rfl, .inl nofun⟩
  | beginApply => exact ⟨[_], rfl, .inl (by simp [Step.ofHost])⟩
  | endBody => exact ⟨[_, _], Engine.journal_begun _, .inl (by simp [Step.ofHost])⟩
  | endApply => exact ⟨[], rfl, .inl nofun⟩

/-- On the way from one situation to another there is an advance of its own for each step that has
the host act. -/
lemma Reaches.exists_of_noted (h : Reaches begins m m') {step : Step κ} (hstep : step.ofHost = true)
    {later earlier : List (Step κ)}
    (hnoted : m'.tree.journal = later ++ step :: (earlier ++ m.tree.journal)) :
    ∃ n n', Reaches begins m n ∧ Advance begins n n' ∧ Reaches begins n' m' ∧
      n'.tree.journal = step :: n.tree.journal ∧ n.tree.journal = earlier ++ m.tree.journal := by
  induction h generalizing later with
  | refl =>
    have hlength := congrArg List.length hnoted
    simp only [List.length_append, List.length_cons] at hlength
    omega
  | @tail n m' hreaches hadvance ih =>
    obtain ⟨steps, hsteps, hkind⟩ := hadvance.journal
    -- the step is all that the last advance has noted, or it was noted before
    have hcases : (m'.tree.journal = step :: n.tree.journal ∧
          n.tree.journal = earlier ++ m.tree.journal) ∨
        ∃ later, n.tree.journal = later ++ step :: (earlier ++ m.tree.journal) := by
      rcases List.append_eq_append_iff.1 (hnoted.symm.trans hsteps) with
        ⟨after, rfl, hafter⟩ | ⟨before, rfl, hbefore⟩
      · cases after with
        | nil => exact .inr ⟨[], hafter.symm⟩
        | cons first older =>
          obtain ⟨rfl, holder⟩ := List.cons.inj hafter
          obtain ⟨only, hone⟩ : ∃ only, later ++ step :: older = [only] := by
            rcases hkind with hquiet | ⟨_, _, hone⟩ | ⟨_, _, hone, -⟩
            · rw [hquiet step (List.mem_append_right _ (.head _))] at hstep
              cases hstep
            · exact ⟨_, hone⟩
            · exact ⟨_, hone⟩
          have hlength : later.length + (older.length + 1) = 1 := by
            simpa using congrArg List.length hone
          obtain rfl : later = [] := List.length_eq_zero_iff.1 (by omega)
          obtain rfl : older = [] := List.length_eq_zero_iff.1 (by omega)
          exact .inl ⟨hsteps, holder.symm⟩
      · exact .inr ⟨before, hbefore⟩
    rcases hcases with ⟨hlast, hn⟩ | ⟨later, hlater⟩
    · exact ⟨n, m', hreaches, hadvance, .refl, hlast, hn⟩
    · obtain ⟨k, k', hto, hnotes, hfrom, hkeeps⟩ := ih hlater
      exact ⟨k, k', hto, hnotes, hfrom.tail hadvance, hkeeps⟩

/-- On the way there is a situation for each call of a procedure that was noted: the moment at which
the procedure begins. -/
theorem Reaches.exists_of_called (h : Reaches begins m m') {procedure : κ} {how : Invocation}
    {later earlier : List (Step κ)}
    (hcalled : m'.tree.journal = later ++ .called procedure how :: (earlier ++ m.tree.journal)) :
    ∃ n, Reaches begins m n ∧ Reaches begins n m' ∧
      n.tree.journal = .called procedure how :: (earlier ++ m.tree.journal) := by
  obtain ⟨n, n', hto, hadvance, hfrom, hn', hn⟩ := h.exists_of_noted rfl hcalled
  exact ⟨n', hto.tail hadvance, hfrom, hn ▸ hn'⟩

/-- There is a situation for each start of a task, too, and in it the last call drains the queue of
the task. -/
theorem Reaches.exists_of_started (h : Reaches begins m m') {q : Queue} {number : ℕ}
    {later earlier : List (Step κ)}
    (hstarted : m'.tree.journal = later ++ .started q number :: (earlier ++ m.tree.journal)) :
    ∃ stage stages t, stage.queue? = some q ∧ Reaches begins m ⟨stage :: stages, t⟩ ∧
      Reaches begins ⟨stage :: stages, t⟩ m' ∧
      t.journal = .started q number :: (earlier ++ m.tree.journal) := by
  obtain ⟨n, ⟨_, t⟩, hto, hadvance, hfrom, hn', hn⟩ := h.exists_of_noted rfl hstarted
  obtain ⟨steps, hsteps, hkind⟩ := hadvance.journal
  obtain rfl : [.started q number] = steps := List.append_cancel_right (hn'.symm.trans hsteps)
  rcases hkind with hquiet | ⟨_, _, hone⟩ | ⟨_, _, hone, stage, stages, hstage, -, rfl⟩
  · cases hquiet _ (.head _)
  · cases hone
  · cases hone
    exact ⟨stage, stages, t, hstage, hto.tail hadvance, hfrom, hn ▸ hn'⟩

end Situation

/-! ## Runs go through situations -/

open Situation (Advance Reaches)

/-- Where the calls of a host begin: a digest where one is asked for, and an apply where one is, or
where the deferred one is run. -/
inductive Host.Opens (H : Host κ σ) : Stage → Tree κ σ → Prop
  | digest {limit : ℕ} {s : ScopeId} {t u : Tree κ σ} {r : Except Error Unit}
    (hrun : runOn ((H.engine limit).digest s) t = some (r, u)) : Opens H (.draining s) t
  | apply {limit : ℕ} {body : Routine κ σ Value} {t u : Tree κ σ} {r : Except Error Value}
    (hbody : (H.engine limit).IsBody body)
    (hrun : runOn ((H.engine limit).apply body) t = some (r, u)) : Opens H .applying t
  | flush {limit : ℕ} {t u : Tree κ σ} {r : Except Error Value}
    (hrun : runOn (H.engine limit).applyQueued t = some (r, u)) : Opens H .flushing t

/-- In a run of the host, the one tree can come after the other while the accepted calls stay as
they are, whatever they are. -/
def Host.Course (H : Host κ σ) (t u : Tree κ σ) : Prop :=
  ∀ stages, Reaches H.Opens ⟨stages, t⟩ ⟨stages, u⟩

/-- The same while the last call is in the given stage. -/
def Host.CourseIn (H : Host κ σ) (stage : Stage) (t u : Tree κ σ) : Prop :=
  ∀ stages, Reaches H.Opens ⟨stage :: stages, t⟩ ⟨stage :: stages, u⟩

namespace Host

variable {H : Host κ σ} {limit : ℕ} {t u : Tree κ σ} {stage : Stage}

instance : IsPreorder (Tree κ σ) H.Course where
  refl _ _ := .refl
  trans _ _ _ h₁ h₂ stages := (h₁ stages).trans (h₂ stages)

instance : IsPreorder (Tree κ σ) (H.CourseIn stage) where
  refl _ _ := .refl
  trans _ _ _ h₁ h₂ stages := (h₁ stages).trans (h₂ stages)

lemma Course.within (h : H.Course t u) (stage : Stage) : H.CourseIn stage t u :=
  fun stages => h (stage :: stages)

lemma course_of_touch (h : t.Touch u) : H.Course t u := fun _ => .single (.touch h)

lemma surveys_course : Surveys H.Course where
  act h happly := course_of_touch (.act h happly)
  queueApply t s work := course_of_touch (.queueApply t s work)
  beginDestroy _ := course_of_touch (.beginDestroy _ _)
  tearDown _ h := trans_of H.Course (trans_of H.Course (course_of_touch (.beginDestroy _ _)) h)
    (course_of_touch (.tearDown _ _))
  setKind _ _ := course_of_touch (.setKind _ _ _)
  record h := course_of_touch (.record h)
  checked := course_of_touch (.checked _ _)
  dirty := course_of_touch (.dirty _ _)

lemma allows_course : Allows H.Course := surveys_course.toAllows

section Calls

variable (hcall : ∀ procedure how, Leads H.Course ((H.engine limit).invoke procedure how))

include hcall

/-- The tasks of a queue run in the stage that drains it. -/
lemma courseIn_drain {q : Queue} (hstage : stage.queue? = some q) :
    Leads (H.CourseIn stage) ((H.engine limit).drain q) := by
  refine Engine.leads_drain_of_task fun {t task u r v} hnext hrun stages => ?_
  by_cases hwork : task.work = .rearm
  · rw [hwork] at hrun
    obtain ⟨-, r₁, w, hperform, hend⟩ := Engine.runOn_contained_cases hrun
    cases hperform
    obtain ⟨-, rfl⟩ | ⟨e, he, -⟩ := hend
    · exact .single (.rearm hstage hnext hwork)
    · cases he
  · have hperform :
        Leads H.Course
          ((H.engine limit).contained ((H.engine limit).perform task.scope task.work)) :=
      Engine.leads_contained allows_course.permits.grants
        (Engine.leads_perform allows_course hcall _ _)
    exact .head (.start hstage hnext hwork) (hperform hrun (stage :: stages))

lemma reaches_pass {s : ScopeId} {r : Except Error Bool}
    (h : runOn ((H.engine limit).pass s) t = some (r, u)) (passed : Bool) (stages : List Stage) :
    Reaches H.Opens ⟨.looping s passed :: stages, t⟩ ⟨.looping s true :: stages, u⟩ := by
  rw [Engine.pass, Compute.runOn_change_bind] at h
  have hwalk := Routine.leads_walk (Engine.leads_visitScope surveys_course hcall)
    (H.engine limit).limit s
  exact .head .pass (Leads.bind hwalk (fun _ => .pure _) h _)

/-- The loop of a digest ends after a pass. -/
lemma reaches_passes {s : ScopeId} {n : ℕ} {r : Except Error Bool}
    (h : runOn ((H.engine limit).passes s n) t = some (r, u)) (passed : Bool)
    (stages : List Stage) :
    Reaches H.Opens ⟨.looping s passed :: stages, t⟩ ⟨.looping s true :: stages, u⟩ := by
  have hround : ∀ {t u dirty} (passed : Bool), (H.engine limit).Round s dirty t u →
      Reaches H.Opens ⟨.looping s passed :: stages, t⟩ ⟨.looping s true :: stages, u⟩ := by
    rintro t u dirty passed ⟨v, hdrain, hpass⟩
    exact (courseIn_drain hcall rfl hdrain stages).trans (reaches_pass hcall hpass passed stages)
  induction n generalizing t passed with
  | zero =>
    obtain ⟨dirty, v, hfirst, ⟨-, -, -, rfl⟩ | ⟨-, ⟨-, -, rfl⟩ | ⟨m, hm, -⟩⟩⟩ :=
      Engine.round_of_passes h
    · exact hround passed hfirst
    · exact hround passed hfirst
    · cases hm
  | succ n ih =>
    obtain ⟨dirty, v, hfirst, ⟨-, -, -, rfl⟩ | ⟨-, ⟨hn, -, -⟩ | ⟨m, hm, hrest⟩⟩⟩ :=
      Engine.round_of_passes h
    · exact hround passed hfirst
    · cases hn
    · cases hm
      exact (hround passed hfirst).trans (ih hrest true)

/-- A digest that has begun goes through its stages and returns. -/
lemma reaches_digest {s : ScopeId} {r : Except Error Unit} (hidle : t.phase = none)
    (h : runOn ((H.engine limit).digest s) t = some (r, u)) (stages : List Stage) :
    Reaches H.Opens ⟨.draining s :: stages, t.begun⟩ ⟨stages, u⟩ := by
  obtain ⟨settled, v, w, hdrain, hpasses, hend⟩ := Engine.runOn_digest_cases hidle h
  have hloop : Reaches H.Opens ⟨.draining s :: stages, t.begun⟩
      ⟨.finishing s :: stages, w.leave .digest⟩ :=
    calc Reaches H.Opens ⟨.draining s :: stages, t.begun⟩ ⟨.draining s :: stages, v⟩ :=
          courseIn_drain hcall rfl hdrain stages
      Reaches H.Opens _ ⟨.looping s false :: stages, v⟩ :=
          .single (.beginLoop (Engine.tasks_of_drainWithin hdrain))
      Reaches H.Opens _ ⟨.looping s true :: stages, w⟩ := reaches_passes hcall hpasses false stages
      Reaches H.Opens _ ⟨.finishing s :: stages, w.leave .digest⟩ := .single .endLoop
  rcases hend with ⟨-, -, hpost⟩ | ⟨-, -, rfl⟩
  · exact (hloop.trans (courseIn_drain hcall rfl hpost stages)).tail .endDigest
  · exact hloop.tail .endDigest

lemma course_digest (s : ScopeId) : Leads H.Course ((H.engine limit).digest s) := by
  intro t r u h stages
  cases hphase : t.phase with
  | some active =>
    rw [Engine.runOn_digest_of_busy hphase] at h
    cases h
    exact .refl
  | none => exact .head (.beginDigest hphase (.digest h)) (reaches_digest hcall hphase h stages)

/-- An apply that has begun runs its body, digests and returns. -/
lemma reaches_apply (hstage : stage.isBody = true) {body : Routine κ σ Value}
    (hcourse : Leads (H.CourseIn stage) body) {r : Except Error Value} (hidle : t.phase = none)
    (h : runOn ((H.engine limit).apply body) t = some (r, u)) (stages : List Stage) :
    Reaches H.Opens ⟨stage :: stages, t.entering .apply⟩ ⟨stages, u⟩ := by
  obtain ⟨result, v, digested, hrun, hdigest, -⟩ := Engine.runOn_apply_cases hidle h
  calc Reaches H.Opens ⟨stage :: stages, t.entering .apply⟩ ⟨stage :: stages, v⟩ :=
        hcourse hrun stages
    Reaches H.Opens _ ⟨.draining rootId :: .applied :: stages, (v.leave .apply).begun⟩ :=
      .single (.endBody hstage (.digest hdigest))
    Reaches H.Opens _ ⟨.applied :: stages, u⟩ := reaches_digest hcall rfl hdigest _
    Reaches H.Opens _ ⟨stages, u⟩ := .single .endApply

lemma course_apply {body : Routine κ σ Value} (hbody : (H.engine limit).IsBody body)
    (hcourse : Leads H.Course body) : Leads H.Course ((H.engine limit).apply body) := by
  intro t r u h stages
  cases hphase : t.phase with
  | some active =>
    rw [Engine.runOn_apply_of_busy hphase] at h
    cases h
    exact .refl
  | none =>
    have hin : Leads (H.CourseIn .applying) body := fun _ _ _ hrun => (hcourse hrun).within _
    exact .head (.beginApply hphase (.apply hbody h)) (reaches_apply hcall rfl hin hphase h stages)

/-! ## Deferred jobs -/

lemma course_runDigest : Leads H.Course (H.engine limit).runDigest := by
  refine (Leads.read _).bind fun idle => ?_
  cases idle with
  | true => exact .pure ()
  | false =>
    exact Engine.leads_contained allows_course.permits.grants (course_digest hcall rootId)

/-- A deferred apply that is taken is skipped, put off, or run. -/
lemma course_runApply {v : Tree κ σ} {job : Job} {r : Except Error Unit}
    (htakes : t.TakesJob job u) (hkind : job.kind = .apply)
    (h : runOn (H.engine limit).runApply u = some (r, v)) : H.Course t v := by
  intro stages
  obtain ⟨deferral, -, hu⟩ := htakes.takes
  rw [Engine.runApply, Compute.runOn_alter_bind] at h
  cases hpending : u.applyFlush.isSome with
  | false =>
    have hnone : u.applyFlush = none :=
      Option.not_isSome_iff_eq_none.1 (ne_true_of_eq_false hpending)
    have hsame : { u with applyFlush := none } = u := by rw [← hnone]
    have hflush : t.applyFlush = u.applyFlush := by
      rw [hu]
      rfl
    rw [hpending] at h
    cases h
    rw [hsame]
    exact .single (.skipFlush htakes hkind (hflush.trans hnone))
  | true =>
    rw [hpending, if_pos rfl] at h
    obtain ⟨result, w, happly, hrest⟩ := Compute.runOn_attempt_bind_cases h
    have hphase : { u with applyFlush := none }.phase = t.phase := htakes.phase
    cases ht : t.phase with
    | some active =>
      rw [Engine.applyQueued, Engine.runOn_apply_of_busy (hphase.trans ht)] at happly
      cases happly
      cases hrest
      exact .single (.postponeFlush htakes hkind)
    | none =>
      have hin : Leads (H.CourseIn .flushing)
          (do (H.engine limit).drain .apply; return Value.undefined) :=
        (courseIn_drain hcall rfl).bind fun _ => .pure _
      have hflush : Reaches H.Opens ⟨stages, t⟩ ⟨stages, w⟩ :=
        .head (.beginFlush htakes hkind ht (.flush happly))
          (reaches_apply hcall rfl hin (hphase.trans ht) happly stages)
      refine hflush.trans ?_
      split at hrest
      · cases hrest
        exact .refl
      · cases hrest
        exact .single (.touch (.act (.enqueue w Queue.noConfusion _ _) rfl))
      · exact Engine.leads_reportError allows_course.permits.grants _ hrest stages

lemma course_runJob {v : Tree κ σ} {job : Job} {r : Except Error Unit}
    (htakes : t.TakesJob job u) (h : runOn ((H.engine limit).runJob job.kind) u = some (r, v)) :
    H.Course t v := by
  cases hkind : job.kind with
  | digest =>
    rw [hkind] at h
    exact fun stages => .head (.runDigest htakes hkind) (course_runDigest hcall h stages)
  | apply =>
    rw [hkind] at h
    exact course_runApply hcall htakes hkind h

lemma tame_course : (H.engine limit).Tame H.Course where
  invoke := hcall
  digest := course_digest hcall
  apply := course_apply hcall
  flush := Engine.leads_runJobs (R := H.Course) (fun hnext => course_runJob hcall (.first hnext)) _
  advance milliseconds := by
    refine (Leads.read _).bind fun _ => Leads.bind (Leads.discard ?_) fun _ =>
      .change fun t => course_of_touch (.clock t _)
    exact Engine.leads_runJobs (R := H.Course) (fun hnext => course_runJob hcall (.due hnext)) _

end Calls

/-- Every run of a program goes from situation to situation, whatever calls have not returned yet,
and these are the same at its end.  All calls are calls of the host. -/
theorem reaches_of_run {p : Program κ σ α} {r : Except Error α}
    (h : H.run limit p t = some (r, u)) (stages : List Stage) :
    Reaches H.Opens ⟨stages, t⟩ ⟨stages, u⟩ := by
  have htame := H.tame allows_course (fun _ hcall => tame_course hcall) limit
  exact Engine.leads_execute allows_course htame p h stages

end Host

end DataBinding
