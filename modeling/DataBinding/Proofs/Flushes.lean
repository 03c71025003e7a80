import DataBinding.Proofs.Stages

/-!
# Deferred applies

Tasks that are queued for an apply share one deferred apply.  The tree keeps its name while it waits
(`Tree.Booked`), and whenever tasks wait for an apply, the deferred apply waits too, or a task that
defers it again waits for the end of a digest, or a call that was accepted is about to run them
(`Situation.Attended`).  So a deferred apply that comes at the wrong time does not leave them
behind.

Both hold in every situation of every run (`Host.flush_kept`): a digest cancels the deferred apply
and runs the tasks itself, a deferred apply that is taken gives up its name and runs the tasks or is
put off, and a task that is queued has the apply deferred unless it is already.
-/

namespace DataBinding

open Compute (runOn)

variable {κ σ α : Type}

/-! ## The jobs that apply -/

namespace Deferral

variable {d d' : Deferral} {job : Job}

/-- The names of the deferred applies. -/
def flushes (d : Deferral) : List JobId := (d.jobs.filter (·.kind == .apply)).map Job.id

lemma mem_flushes {id : JobId} :
    id ∈ d.flushes ↔ ∃ job ∈ d.jobs, job.kind = .apply ∧ job.id = id := by
  simp [flushes, and_assoc]

lemma flushes_defer_digest (d : Deferral) (delay : ℕ) :
    (d.defer delay .digest).2.flushes = d.flushes := by
  rw [flushes, defer, List.filter_append]
  simp [flushes]

lemma flushes_defer_apply (d : Deferral) (delay : ℕ) :
    (d.defer delay .apply).2.flushes = d.flushes ++ [d.next] := by
  rw [flushes, defer, List.filter_append]
  simp [flushes]

lemma flushes_cancel (d : Deferral) (id : JobId) :
    (d.cancel id).flushes = d.flushes.filter (· != id) := by
  rw [flushes, flushes, cancel, List.filter_map, List.filter_filter, List.filter_filter]
  simp only [Bool.and_comm, Function.comp_def]

/-- Of the deferred applies the one is gone that is taken, if it is one. -/
lemma Takes.flushes (h : d.Takes job d') (hd : d.Filed) :
    d'.flushes = d.flushes.filter (· != job.id) := by
  rw [← flushes_cancel, Deferral.flushes, h.jobs hd, Deferral.flushes]

lemma Takes.flushes_of_digest (h : d.Takes job d') (hd : d.Filed) (hkind : job.kind = .digest) :
    d'.flushes = d.flushes := by
  rw [h.flushes hd]
  refine List.filter_eq_self.2 fun id hid => ?_
  obtain ⟨other, hother, happly, rfl⟩ := mem_flushes.1 hid
  have hne : other.id ≠ job.id := fun heq => by
    rw [hd.eq_of_id hother h.mem heq, hkind] at happly
    cases happly
  simpa using hne

end Deferral

/-! ## The name of the deferred apply -/

namespace Tree

variable {t u : Tree κ σ} {job : Job}

/-- The deferred jobs are filed, and the tree has the name of a deferred apply just while there is
one that waits, which is the only one. -/
structure Booked (t : Tree κ σ) : Prop where
  filed : t.deferral.Filed
  flushes : t.deferral.flushes = t.applyFlush.toList

lemma booked_plant (store : Store σ) (compiler : Compiler) (config : Config) (timed : Bool) :
    Booked (.plant store compiler config timed : Tree κ σ) where
  filed := ⟨List.Pairwise.nil, fun _ hjob => absurd hjob List.not_mem_nil⟩
  flushes := rfl

lemma Booked.of_same (h : t.Booked) (hdeferral : u.deferral = t.deferral)
    (hflush : u.applyFlush = t.applyFlush) : u.Booked :=
  ⟨hdeferral ▸ h.filed, by rw [hdeferral, hflush, h.flushes]⟩

lemma Booked.armApply (h : t.Booked) : t.armApply.Booked := by
  unfold Tree.armApply
  split
  · exact h
  · next hguard =>
    have hnone : t.applyFlush = none := by
      simp only [Bool.or_eq_true, not_or, Option.not_isSome_iff_eq_none] at hguard
      exact hguard.1
    have hempty : t.deferral.flushes = [] := h.flushes.trans (congrArg Option.toList hnone)
    refine ⟨h.filed.defer _ _, ?_⟩
    exact (Deferral.flushes_defer_apply _ _).trans (congrArg (· ++ [t.deferral.next]) hempty)

lemma Booked.cancelApply (h : t.Booked) : t.cancelApply.Booked := by
  unfold Tree.cancelApply
  split
  · next id hflush =>
    refine ⟨h.filed.cancel id, ?_⟩
    have hone : t.deferral.flushes = [id] := h.flushes.trans (congrArg Option.toList hflush)
    rw [Deferral.flushes_cancel, hone]
    simp
  · exact h

lemma Booked.begun (h : t.Booked) : t.begun.Booked :=
  Booked.cancelApply (h.of_same rfl rfl)

lemma Act.booked (h : t.Act u) (ht : t.Booked) : u.Booked := by
  rcases h.jobs with ⟨hdeferral, hflush⟩ | ⟨delay, hdeferral, hflush⟩ | rfl
  · exact ht.of_same hdeferral hflush
  · refine ⟨hdeferral ▸ ht.filed.defer delay .digest, ?_⟩
    rw [hdeferral, hflush, Deferral.flushes_defer_digest, ht.flushes]
  · exact ht.armApply

lemma applyFlush_tearDown (t : Tree κ σ) (s : ScopeId) :
    (t.tearDown s).applyFlush = t.applyFlush := by
  obtain ⟨_, h⟩ := tearDown_eq_scopes t s
  rw [h]

lemma Touch.booked (h : t.Touch u) (ht : t.Booked) : u.Booked := by
  cases h with
  | act h => exact h.booked ht
  | queueApply s work => exact Booked.armApply (ht.of_same rfl rfl)
  | tearDown s => exact ht.of_same (deferral_tearDown t s) (applyFlush_tearDown t s)
  | record h =>
    obtain ⟨_, _, rfl⟩ := eq_of_record h
    exact ht.of_same rfl rfl
  | clock now => exact ⟨ht.filed.of_sublist (List.Sublist.refl _) rfl, ht.flushes⟩
  | _ => exact ht.of_same rfl rfl

lemma TakesJob.booked_of_digest (h : t.TakesJob job u) (hkind : job.kind = .digest)
    (ht : t.Booked) : u.Booked := by
  obtain ⟨deferral, htakes, rfl⟩ := h.takes
  exact ⟨htakes.filed ht.filed, (htakes.flushes_of_digest ht.filed hkind).trans ht.flushes⟩

/-- A deferred apply that is taken is the one whose name the tree has. -/
lemma TakesJob.applyFlush_of_apply (h : t.TakesJob job u) (hkind : job.kind = .apply)
    (ht : t.Booked) : t.applyFlush = some job.id := by
  obtain ⟨deferral, htakes, -⟩ := h.takes
  have hmem : job.id ∈ t.deferral.flushes := Deferral.mem_flushes.2 ⟨job, htakes.mem, hkind, rfl⟩
  rw [ht.flushes] at hmem
  exact Option.mem_toList.1 hmem

/-- A deferred apply that is taken gives up its name. -/
lemma TakesJob.booked_of_apply (h : t.TakesJob job u) (hkind : job.kind = .apply)
    (ht : t.Booked) : { u with applyFlush := none }.Booked := by
  have hflush := h.applyFlush_of_apply hkind ht
  obtain ⟨deferral, htakes, rfl⟩ := h.takes
  refine ⟨htakes.filed ht.filed, ?_⟩
  have hone : t.deferral.flushes = [job.id] := ht.flushes.trans (congrArg Option.toList hflush)
  refine (htakes.flushes ht.filed).trans ?_
  rw [hone]
  simp

lemma booked_of_dequeue? {q : Queue} {task : Task κ} (h : t.dequeue? q = some (task, u))
    (ht : t.Booked) : u.Booked := by
  obtain ⟨_, rfl⟩ := eq_of_dequeue? h
  exact ht.of_same rfl rfl

/-! ## What leads to an apply -/

/-- The deferred apply waits, or a task that defers it again. -/
def FlushComes (t : Tree κ σ) : Prop :=
  t.applyFlush.isSome = true ∨ ∃ task ∈ t.queues.postDigest, task.work = .rearm

lemma FlushComes.mono (h : t.FlushComes)
    (hflush : t.applyFlush.isSome = true → u.applyFlush.isSome = true)
    (htasks : t.queues.postDigest ⊆ u.queues.postDigest) : u.FlushComes :=
  h.imp hflush fun ⟨task, htask, hwork⟩ => ⟨task, htasks htask, hwork⟩

lemma armApply_of_isSome (h : t.applyFlush.isSome = true) : t.armApply = t := by
  rw [armApply, h, Bool.true_or, if_pos rfl]

/-- If tasks wait for an apply, it is deferred once it was to be. -/
lemma isSome_armApply (h : t.queues.apply ≠ []) : t.armApply.applyFlush.isSome = true := by
  unfold armApply
  split
  · next hguard =>
    rw [List.isEmpty_eq_false_iff.2 h, Bool.or_false] at hguard
    exact hguard
  · rfl

lemma postDigest_subset_push (qs : Queues κ) (q : Queue) (s : ScopeId) (work : Work κ) :
    qs.postDigest ⊆ (qs.push q s work).postDigest := by
  cases q with
  | postDigest => exact List.subset_append_left _ _
  | _ => exact List.Subset.refl _

lemma Act.flushComes (h : t.Act u) (ht : t.FlushComes) : u.FlushComes := by
  refine ht.mono (fun hsome => ?_) ?_
  · rcases h.jobs with ⟨-, hflush⟩ | ⟨_, -, hflush⟩ | rfl
    · rwa [hflush]
    · rwa [hflush]
    · rwa [armApply_of_isSome hsome]
  · rcases h.queues with hqueues | ⟨q, s, work, hqueues⟩
    · rw [hqueues]
      exact List.Subset.refl _
    · rw [hqueues]
      exact postDigest_subset_push _ q s work

/-- If an apply comes whenever tasks wait for one, this is so after a change, too. -/
lemma Touch.flushComes (h : t.Touch u) (ht : t.queues.apply ≠ [] → t.FlushComes)
    (hu : u.queues.apply ≠ []) : u.FlushComes := by
  cases h with
  | act h happly => exact h.flushComes (ht (happly ▸ hu))
  | queueApply s work =>
    have hqueue : (t.enqueue .apply s work).queues.apply ≠ [] :=
      List.append_ne_nil_of_right_ne_nil _ (List.cons_ne_nil _ _)
    exact .inl (isSome_armApply hqueue)
  | tearDown s =>
    have hqueues := queues_tearDown t s
    refine (ht fun h => hu (hqueues ▸ h)).mono ?_ (hqueues ▸ List.Subset.refl _)
    rw [applyFlush_tearDown t s]
    exact id
  | record h =>
    obtain ⟨_, _, rfl⟩ := eq_of_record h
    exact ht hu
  | _ => exact ht hu

end Tree

/-! ## Situations -/

namespace Situation

variable {begins : Stage → Tree κ σ → Prop} {m m' : Situation κ σ}

/-- If tasks wait for an apply, it comes, or a call that was accepted is about to run them. -/
def Attended (m : Situation κ σ) : Prop :=
  m.tree.queues.apply ≠ [] → m.tree.FlushComes ∨ ∃ stage ∈ m.stages, stage.queue? = some .apply

lemma Attended.of_empty {stages : List Stage} {t : Tree κ σ} (h : t.queues.apply = []) :
    Attended ⟨stages, t⟩ := fun hne => absurd h hne

lemma Attended.of_stage {stage : Stage} {stages : List Stage} {t : Tree κ σ}
    (h : stage.queue? = some .apply) : Attended ⟨stage :: stages, t⟩ :=
  fun _ => .inr ⟨stage, .head _, h⟩

/-- While a call moves on from a stage that runs no tasks for an apply, or returns from it, and the
tree stays as it is in this respect. -/
lemma Attended.mono {stages stages' : List Stage} {t u : Tree κ σ} (h : Attended ⟨stages, t⟩)
    (happly : u.queues.apply = t.queues.apply) (hcomes : t.FlushComes → u.FlushComes)
    (hstages : ∀ stage ∈ stages, stage.queue? = some .apply → stage ∈ stages') :
    Attended ⟨stages', u⟩ := fun hne =>
  (h (happly ▸ hne)).imp hcomes fun ⟨stage, hmem, hqueue⟩ =>
    ⟨stage, hstages stage hmem hqueue, hqueue⟩

/-- A stage that runs no tasks for an apply does not matter. -/
lemma mem_of_mem_cons {stage : Stage} {stages : List Stage} (hne : stage.queue? ≠ some .apply) :
    ∀ other ∈ stage :: stages, other.queue? = some .apply → other ∈ stages := by
  intro other hother hqueue
  rcases List.mem_cons.1 hother with rfl | hother
  · exact absurd hqueue hne
  · exact hother

/-- Every advance keeps the name of the deferred apply. -/
theorem Advance.booked (h : Advance begins m m') (hm : m.tree.Booked) : m'.tree.Booked := by
  cases h with
  | touch h => exact h.booked hm
  | runDigest h hkind => exact h.booked_of_digest hkind hm
  | skipFlush h hkind hflush =>
    rw [h.applyFlush_of_apply hkind hm] at hflush
    cases hflush
  | postponeFlush h hkind => exact (h.booked_of_apply hkind hm).of_same rfl rfl
  | beginFlush h hkind => exact (h.booked_of_apply hkind hm).of_same rfl rfl
  | start _ h => exact Tree.booked_of_dequeue? h hm
  | rearm _ h => exact (Tree.booked_of_dequeue? h hm).armApply
  | beginDigest => exact Tree.Booked.begun hm
  | endBody => exact Tree.Booked.begun (hm.of_same rfl rfl)
  | beginApply | pass | endLoop => exact hm.of_same rfl rfl
  | beginLoop | endDigest | endApply => exact hm

/-- Every advance keeps the tasks that wait for an apply attended. -/
theorem Advance.attended (h : Advance begins m m') (hm : m.Attended) : m'.Attended := by
  cases h with
  | @touch stages t u h =>
    intro hne
    by_cases hstage : ∃ stage ∈ stages, stage.queue? = some .apply
    · exact .inr hstage
    · exact .inl (h.flushComes (fun ht => (hm ht).resolve_right hstage) hne)
  | runDigest h =>
    obtain ⟨_, -, rfl⟩ := h.takes
    exact hm
  | skipFlush h =>
    obtain ⟨_, -, rfl⟩ := h.takes
    exact hm
  | postponeFlush => exact fun _ => .inl (.inr ⟨_, List.mem_append_right _ (.head _), rfl⟩)
  | beginFlush => exact .of_stage rfl
  | @start stage stages t u q task hstage h hwork =>
    by_cases hq : q = .apply
    · exact .of_stage (hq ▸ hstage)
    · have happly : u.queues.apply = t.queues.apply := Tree.tasks_of_dequeue?_of_ne h (Ne.symm hq)
      have hflush : u.applyFlush = t.applyFlush := by
        obtain ⟨_, rfl⟩ := Tree.eq_of_dequeue? h
        rfl
      refine hm.mono happly (fun hcomes => ?_) fun _ hmem _ => hmem
      rcases hcomes with hsome | ⟨other, hother, hrearm⟩
      · exact .inl (hflush ▸ hsome)
      · refine .inr ⟨other, ?_, hrearm⟩
        by_cases hpost : q = .postDigest
        · subst hpost
          have htasks : t.queues.postDigest = task :: u.queues.postDigest :=
            Tree.tasks_of_dequeue? h
          rw [htasks] at hother
          rcases List.mem_cons.1 hother with rfl | hother
          · exact absurd hrearm hwork
          · exact hother
        · have htasks : u.queues.postDigest = t.queues.postDigest :=
            Tree.tasks_of_dequeue?_of_ne h (Ne.symm hpost)
          exact htasks ▸ hother
  | @rearm stage stages t u =>
    intro hne
    have happly : u.armApply.queues.apply = u.queues.apply := u.apply_armApply
    exact .inl (.inl (Tree.isSome_armApply (happly ▸ hne)))
  | beginDigest => exact .of_stage rfl
  | beginLoop hempty => exact .of_empty hempty
  | @pass stages t s passed =>
    have hloop : (Stage.looping s passed).queue? ≠ some .apply := nofun
    exact hm.mono rfl id fun _ hmem h => .tail _ (mem_of_mem_cons hloop _ hmem h)
  | @endLoop stages t s =>
    have hloop : (Stage.looping s true).queue? ≠ some .apply := nofun
    exact hm.mono rfl id fun _ hmem h => .tail _ (mem_of_mem_cons hloop _ hmem h)
  | endDigest => exact hm.mono rfl id (mem_of_mem_cons nofun)
  | beginApply => exact hm.mono rfl id fun _ hmem _ => .tail _ hmem
  | endBody => exact .of_stage rfl
  | endApply => exact hm.mono rfl id (mem_of_mem_cons nofun)

lemma Reaches.booked (h : Reaches begins m m') (hm : m.tree.Booked) : m'.tree.Booked :=
  h.preserves Advance.booked hm

lemma Reaches.attended (h : Reaches begins m m') (hm : m.Attended) : m'.Attended :=
  h.preserves Advance.attended hm

end Situation

open Situation (Reaches)

/-- Whatever a host does goes from situation to situation, and there is one for each call of a
procedure on the way; what the procedure does goes on from there.  In every situation at most one
deferred apply waits; the tree has its name just while it does; and if tasks wait for an apply, then
the deferred apply waits, or a task that defers it again waits for the end of a digest, or a call
that was accepted runs them. -/
theorem Host.flush_kept (H : Host κ σ) (store : Store σ) (compiler : Compiler) (config : Config)
    (timed : Bool) :
    (∀ (m : Situation κ σ) {α : Type} (limit : ℕ) (p : Program κ σ α) (r : Except Error α)
      (u : Tree κ σ), H.run limit p m.tree = some (r, u) → Reaches H.Opens m ⟨m.stages, u⟩ ∧
        ∀ procedure how later earlier,
          u.journal = later ++ .called procedure how :: (earlier ++ m.tree.journal) →
          ∃ n, Reaches H.Opens m n ∧ Reaches H.Opens n ⟨m.stages, u⟩ ∧
            n.tree.journal = .called procedure how :: (earlier ++ m.tree.journal)) ∧
    ∀ (begins : Stage → Tree κ σ → Prop) (m : Situation κ σ),
      Reaches begins ⟨[], .plant store compiler config timed⟩ m →
      m.tree.deferral.flushes.length ≤ 1 ∧
      (∀ id, m.tree.applyFlush = some id ↔
        ∃ job ∈ m.tree.deferral.jobs, job.kind = .apply ∧ job.id = id) ∧
      (m.tree.queues.apply ≠ [] →
        (∃ job ∈ m.tree.deferral.jobs, job.kind = .apply) ∨
        (∃ task ∈ m.tree.queues.postDigest, task.work = .rearm) ∨
        ∃ stage ∈ m.stages, stage.queue? = some .apply) := by
  refine ⟨fun m α limit p r u h => ?_, fun begins m hm => ?_⟩
  · have hreaches := Host.reaches_of_run h m.stages
    exact ⟨hreaches, fun _ _ _ _ hcalled => hreaches.exists_of_called hcalled⟩
  · have hbooked := hm.booked (Tree.booked_plant store compiler config timed)
    have hname : ∀ id, m.tree.applyFlush = some id ↔
        ∃ job ∈ m.tree.deferral.jobs, job.kind = .apply ∧ job.id = id := fun id => by
      rw [← Deferral.mem_flushes, hbooked.flushes, Option.mem_toList]
    refine ⟨?_, hname, fun hne => ?_⟩
    · rw [hbooked.flushes]
      exact Option.length_toList_le
    · rcases hm.attended (.of_empty rfl) hne with (hsome | htask) | hstage
      · obtain ⟨id, hid⟩ := Option.isSome_iff_exists.1 hsome
        obtain ⟨job, hjob, hkind, -⟩ := (hname id).1 hid
        exact .inl ⟨job, hjob, hkind⟩
      · exact .inr (.inl htask)
      · exact .inr (.inr hstage)

/-! ## A host that is too early -/

/-- The procedures of the host. -/
inductive Hasty where
  /-- Queues a task for an apply and runs the deferred jobs at once. -/
  | hurry
  /-- Does nothing. -/
  | work

/-- A host whose deferred apply comes while a digest is going on. -/
def hasty : Host Hasty Unit where
  library := ⟨fun _ _ _ => .endless, fun _ _ => .endless⟩
  report := fun _ host => host
  procedure
    | .hurry, _ => do
      Program.request (.applyAsync rootId .work)
      discard <| Program.request .flush
      return .undefined
    | .work, _ => return .undefined

/-- Hurries in the loop of a digest. -/
def hastySetup : Program Hasty Unit Unit := do
  Program.request (.evalAsync rootId .hurry)
  Program.request (.digest rootId)

lemma hasty_run : ∃ u, hasty.run 9 hastySetup
      (.plant ⟨.empty, ()⟩ ⟨.empty, .empty⟩ {} false) = some (.ok (), u) ∧
    u.queues.apply.length = 1 ∧ u.queues.postDigest = [] ∧
    u.journal.reverse = [.queued .async 0, .entered .digest, .started .async 0,
      .called .hurry (.task rootId), .queued .apply 1, .ran .digest, .ran .apply,
      .queued .postDigest 2, .pass rootId, .left .digest, .started .postDigest 2] := by
  generalize hx : hasty.run 9 hastySetup _ = x
  cbv at hx
  subst hx
  exact ⟨_, rfl, rfl, rfl, rfl⟩

/-- The task that it queued waits at the end of the run, and the deferred apply waits again. -/
theorem hasty_flush_kept : ∃ u, hasty.run 9 hastySetup
      (.plant ⟨.empty, ()⟩ ⟨.empty, .empty⟩ {} false) = some (.ok (), u) ∧
    Reaches hasty.Opens ⟨[], .plant ⟨.empty, ()⟩ ⟨.empty, .empty⟩ {} false⟩ ⟨[], u⟩ ∧
    (∃ n, Reaches hasty.Opens ⟨[], .plant ⟨.empty, ()⟩ ⟨.empty, .empty⟩ {} false⟩ n ∧
      Reaches hasty.Opens n ⟨[], u⟩ ∧
      n.tree.journal.head? = some (.called .hurry (.task rootId))) ∧
    u.queues.apply ≠ [] ∧ u.deferral.flushes.length ≤ 1 ∧
    ∃ job ∈ u.deferral.jobs, job.kind = .apply ∧ u.applyFlush = some job.id := by
  obtain ⟨hpaths, hkept⟩ := hasty.flush_kept ⟨.empty, ()⟩ ⟨.empty, .empty⟩ {} false
  obtain ⟨u, hrun, hlength, hpost, hjournal⟩ := hasty_run
  obtain ⟨hreaches, hcalls⟩ := hpaths ⟨[], _⟩ 9 hastySetup _ u hrun
  obtain ⟨hone, hname, hattended⟩ := hkept _ _ hreaches
  have hcalled : u.journal = [.started .postDigest 2, .left .digest, .pass rootId,
      .queued .postDigest 2, .ran .apply, .ran .digest, .queued .apply 1] ++
      .called .hurry (.task rootId) ::
        ([.started .async 0, .entered .digest, .queued .async 0] ++ []) := by
    rw [← u.journal.reverse_reverse, hjournal]
    rfl
  obtain ⟨n, hto, hfrom, hn⟩ := hcalls _ _ _ _ hcalled
  have hwaiting : u.queues.apply ≠ [] := fun h => by simp [h] at hlength
  obtain ⟨job, hjob, hkind⟩ | ⟨task, htask, -⟩ | ⟨stage, hstage, -⟩ := hattended hwaiting
  · exact ⟨u, hrun, hreaches, ⟨n, hto, hfrom, congrArg List.head? hn⟩, hwaiting, hone,
      job, hjob, hkind, (hname job.id).2 ⟨job, hjob, hkind, rfl⟩⟩
  · rw [show (⟨[], u⟩ : Situation Hasty Unit).tree.queues.postDigest = [] from hpost] at htask
    cases htask
  · cases hstage

end DataBinding
