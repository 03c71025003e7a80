import Mathlib.Data.List.Nodup
import DataBinding.Proofs.Waiting

/-!
# The jobs that wait

Deferred jobs are in the order of their names, and no name is given twice (`Deferral.Filed`).  Of a
list that is in order a job is taken as one that is cancelled is dropped: it leaves, and the others
stay (`Deferral.Takes`).

A request changes the jobs in two ways only: it defers a digest, or it has the next apply deferred
(`Tree.Act.jobs`).
-/

namespace DataBinding

variable {κ σ : Type}

/-! ## Names -/

namespace Deferral

variable {d d' : Deferral} {job : Job}

/-- Jobs are in the order of their names, and the name that comes next is new. -/
structure Filed (d : Deferral) : Prop where
  ordered : d.jobs.Pairwise fun a b => a.id < b.id
  fresh : ∀ job ∈ d.jobs, job.id < d.next

lemma Filed.defer (h : d.Filed) (delay : ℕ) (kind : JobKind) : (d.defer delay kind).2.Filed where
  ordered := by
    refine List.pairwise_append.2 ⟨h.ordered, List.pairwise_singleton _ _, fun a ha b hb => ?_⟩
    rw [List.mem_singleton.1 hb]
    exact h.fresh a ha
  fresh a ha := by
    rcases List.mem_append.1 ha with ha | ha
    · exact Nat.lt_succ_of_lt (h.fresh a ha)
    · rw [List.mem_singleton.1 ha]
      exact Nat.lt_succ_self _

lemma Filed.of_sublist (h : d.Filed) (hjobs : d'.jobs.Sublist d.jobs) (hnext : d'.next = d.next) :
    d'.Filed where
  ordered := h.ordered.sublist hjobs
  fresh a ha := (h.fresh a (hjobs.subset ha)).trans_eq hnext.symm

lemma Filed.cancel (h : d.Filed) (id : JobId) : (d.cancel id).Filed :=
  h.of_sublist List.filter_sublist rfl

/-- A job is told by its name. -/
lemma Filed.eq_of_id (h : d.Filed) {a b : Job} (ha : a ∈ d.jobs) (hb : b ∈ d.jobs)
    (hid : a.id = b.id) : a = b := by
  have hnodup : (d.jobs.map Job.id).Nodup :=
    List.pairwise_map.2 (h.ordered.imp fun hlt => Nat.ne_of_lt hlt)
  exact List.inj_on_of_nodup_map hnodup ha hb hid

/-! ## Jobs that are taken -/

/-- The one job is taken, as if it were cancelled. -/
structure Takes (d : Deferral) (job : Job) (d' : Deferral) : Prop where
  mem : job ∈ d.jobs
  jobs : d.Filed → d'.jobs = (d.cancel job.id).jobs
  next : d'.next = d.next

lemma Takes.filed (h : d.Takes job d') (hd : d.Filed) : d'.Filed :=
  (hd.cancel job.id).of_sublist (h.jobs hd ▸ List.Sublist.refl _) h.next

/-- All other jobs stay. -/
lemma Takes.others (h : d.Takes job d') (hd : d.Filed) (other : Job) (hother : other ∈ d.jobs)
    (hne : other ≠ job) : other ∈ d'.jobs := by
  rw [h.jobs hd]
  refine List.mem_filter.2 ⟨hother, ?_⟩
  have hid : other.id ≠ job.id := fun hid => hne (hd.eq_of_id hother h.mem hid)
  simpa using hid

lemma mem_of_earliest? {jobs : List Job} (h : earliest? jobs = some job) : job ∈ jobs := by
  induction jobs with
  | nil => cases h
  | cons first rest ih =>
    unfold earliest? at h
    cases hrest : earliest? rest with
    | none =>
      rw [hrest] at h
      cases h
      exact .head _
    | some other =>
      rw [hrest] at h
      dsimp only at h
      split at h
      · cases h
        exact .tail _ (ih hrest)
      · cases h
        exact .head _

lemma takes_of_takeFirst? (h : d.takeFirst? = some (job, d')) : d.Takes job d' := by
  unfold takeFirst? at h
  split at h
  · next rest _ hjobs =>
    cases h
    refine ⟨hjobs ▸ .head _, fun hd => ?_, rfl⟩
    -- the others have later names
    have hlater : ∀ other ∈ rest, job.id < other.id :=
      (List.pairwise_cons.1 (hjobs ▸ hd.ordered)).1
    have hkept : ∀ other ∈ rest, (other.id != job.id) = true := fun other hother => by
      simpa using Nat.ne_of_gt (hlater other hother)
    rw [cancel, hjobs, List.filter_cons_of_neg (by simp), List.filter_eq_self.2 hkept]
  · cases h

lemma takes_of_takeDue? {deadline : ℕ} (h : d.takeDue? deadline = some (job, d')) :
    d.Takes job d' := by
  unfold takeDue? at h
  split at h
  · next first _ hfirst =>
    split at h
    · cases h
      exact ⟨mem_of_earliest? hfirst, fun _ => rfl, rfl⟩
    · cases h
  · cases h

end Deferral

namespace Tree

variable {t u : Tree κ σ} {job : Job}

/-- A job is taken from the deferred jobs, whatever it is that drives them. -/
inductive TakesJob : Tree κ σ → Job → Tree κ σ → Prop
  | first {t u : Tree κ σ} {job : Job} (h : t.takeFirstJob? = some (job, u)) : TakesJob t job u
  | due {t u : Tree κ σ} {job : Job} {deadline : ℕ}
    (h : t.takeDueJob? deadline = some (job, u)) : TakesJob t job u

lemma TakesJob.takes (h : t.TakesJob job u) :
    ∃ deferral, t.deferral.Takes job deferral ∧ u = { t with deferral }.note (.ran job.kind) := by
  cases h with
  | first h =>
    obtain ⟨deferral, htake, rfl⟩ := takeFirstJob?_cases h
    exact ⟨deferral, Deferral.takes_of_takeFirst? htake, rfl⟩
  | due h =>
    obtain ⟨deferral, htake, rfl⟩ := takeDueJob?_cases h
    exact ⟨deferral, Deferral.takes_of_takeDue? htake, rfl⟩

lemma TakesJob.phase (h : t.TakesJob job u) : u.phase = t.phase := by
  obtain ⟨_, -, rfl⟩ := h.takes
  rfl

lemma Tick.filed (h : t.Tick u) (ht : t.deferral.Filed) : u.deferral.Filed := by
  cases h with
  | takeFirst h =>
    obtain ⟨deferral, htake, rfl⟩ := (TakesJob.first h).takes
    exact htake.filed ht
  | takeDue h =>
    obtain ⟨deferral, htake, rfl⟩ := (TakesJob.due h).takes
    exact htake.filed ht
  | disarm => exact ht
  | clock => exact ht.of_sublist (List.Sublist.refl _) rfl

/-! ## Jobs that are deferred -/

/-- A request leaves the jobs as they are, or it defers a digest, or it has the next apply
deferred. -/
lemma Act.jobs (h : t.Act u) :
    (u.deferral = t.deferral ∧ u.applyFlush = t.applyFlush) ∨
      (∃ delay, u.deferral = (t.deferral.defer delay .digest).2 ∧ u.applyFlush = t.applyFlush) ∨
      u = t.armApply := by
  cases h with
  | queueAsync s work =>
    unfold Tree.queueAsync
    split
    · exact .inr (.inl ⟨_, rfl, rfl⟩)
    · exact .inl ⟨rfl, rfl⟩
  | armApply => exact .inr (.inr rfl)
  | removeWatcher w =>
    rcases removeWatcher_cases t w with h | ⟨_, -, ⟨-, h⟩ | ⟨-, h⟩⟩ <;> rw [h] <;>
      exact .inl ⟨rfl, rfl⟩
  | removeListener l =>
    unfold Tree.removeListener
    split <;> exact .inl ⟨rfl, rfl⟩
  | _ => exact .inl ⟨rfl, rfl⟩

/-- A request defers a job, or leaves the jobs as they are. -/
lemma Act.deferral (h : t.Act u) :
    u.deferral = t.deferral ∨ ∃ delay kind, u.deferral = (t.deferral.defer delay kind).2 := by
  rcases h.jobs with ⟨h, -⟩ | ⟨delay, h, -⟩ | rfl
  · exact .inl h
  · exact .inr ⟨delay, .digest, h⟩
  · unfold Tree.armApply
    split
    · exact .inl rfl
    · exact .inr ⟨_, _, rfl⟩

lemma deferral_tearDown (t : Tree κ σ) (s : ScopeId) : (t.tearDown s).deferral = t.deferral := by
  obtain ⟨_, h⟩ := tearDown_eq_scopes t s
  rw [h]

end Tree

end DataBinding
