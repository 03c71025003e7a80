import DataBinding.Proofs.Moments
import DataBinding.Proofs.Termination

/-!
# The outcome of a digest

A digest that was accepted goes round until a pass finds nothing dirty and leaves no task
(`Engine.SettlesAt`), or until it has made one pass more than the configuration allows it to repeat.
In the first case it runs the tasks for its end, in the second it fails and runs none of them.

The journal counts passes and started tasks (`Tree.passCount`, `Tree.startCount`).  In the digest
phase nothing but the rounds of the digest adds to the passes, and nothing starts a task for the end
of a digest (`Engine.Rounds.counts`), so the counts tell how many passes a digest has made and that
no such task ran before its phase ended.
-/

namespace DataBinding

open Compute (Leads runOn)
open DataBinding.Tree (InPhase)

variable {κ σ : Type}

/-! ## Counts -/

/-- Whether a step starts a task of a queue. -/
def Step.startsFrom (q : Queue) : Step κ → Bool
  | .started r _ => r == q
  | _ => false

namespace Tree

variable {t u : Tree κ σ}

/-- The number of tasks of a queue that were started so far. -/
def startCount (t : Tree κ σ) (q : Queue) : ℕ := t.journal.countP (Step.startsFrom q)

/-- Neither a pass was begun nor a task for the end of a digest. -/
structure Calm (t u : Tree κ σ) : Prop where
  passes : u.passCount = t.passCount
  starts : u.startCount .postDigest = t.startCount .postDigest

namespace Calm

lemma of_journal (h : u.journal = t.journal) : Calm t u :=
  ⟨congrArg (List.countP Step.isPass) h, congrArg (List.countP (Step.startsFrom .postDigest)) h⟩

lemma of_step {step : Step κ} (h : u.journal = step :: t.journal) (hpass : step.isPass = false)
    (hstarts : step.startsFrom .postDigest = false) : Calm t u where
  passes := by rw [passCount, h, List.countP_cons_of_neg (by simp [hpass]), passCount]
  starts := by rw [startCount, h, List.countP_cons_of_neg (by simp [hstarts]), startCount]

end Calm

instance : IsPreorder (Tree κ σ) Calm where
  refl _ := .of_journal rfl
  trans _ _ _ h₁ h₂ := ⟨h₂.passes.trans h₁.passes, h₂.starts.trans h₁.starts⟩

lemma Act.calm (h : Act t u) : Calm t u := by
  rcases h.journal with h | ⟨step, hstep, h⟩
  · exact .of_journal h
  · cases step with
    | queued | called | reported => exact .of_step h rfl rfl
    | _ => cases hstep

lemma defers_calm : Defers (Calm (κ := κ) (σ := σ)) where
  toAdmits := .of_changes Act.calm (fun _ _ => .of_journal rfl) fun t s =>
    .of_journal (journal_tearDown t s)
  tick h := by
    rcases h.journal with h | ⟨job, h⟩
    · exact .of_journal h
    · exact .of_step h rfl rfl

lemma visits_calm : Visits (Calm (κ := κ) (σ := σ)) where
  toDefers := defers_calm
  checked := .of_step rfl rfl rfl
  setKind _ _ := .of_journal rfl
  record h := by
    obtain ⟨_, _, rfl⟩ := eq_of_record h
    exact .of_journal rfl
  dirty := .of_journal rfl

lemma calm_of_dequeue? {q : Queue} {task : Task κ} (hq : q ≠ .postDigest)
    (h : t.dequeue? q = some (task, u)) : Calm t u := by
  obtain ⟨_, rfl⟩ := eq_of_dequeue? h
  exact .of_step rfl rfl (beq_false_of_ne hq)

end Tree

open DataBinding.Tree (Calm)

namespace Engine

variable {E : Engine κ σ} {s : ScopeId} {t u v : Tree κ σ} {n : ℕ}

section Governed

variable (hE : E.Governed) {phase : Phase} (hphase : t.phase = some phase)

include hE

lemma calm_drain {q : Queue} (hq : q ≠ .postDigest) : Leads (InPhase Calm) (E.drain q) :=
  leads_drain_of_dequeue Tree.defers_calm.inPhase.toAdmits.allows
    (fun h => .of_phase_eq (phase_of_dequeue? h) (Tree.calm_of_dequeue? hq h))
    (hE.inPhase Tree.defers_calm)

include hphase

/-- A pass counts as one and starts no task for the end of a digest. -/
lemma counts_of_pass {r : Except Error Bool} (h : runOn (E.pass s) t = some (r, u)) :
    u.phase = some phase ∧ u.passCount = t.passCount + 1 ∧
      u.startCount .postDigest = t.startCount .postDigest := by
  rw [pass, Compute.runOn_change_bind] at h
  have hwalk : Leads (InPhase Calm) (Routine.walk E.visitScope E.limit s) :=
    Routine.leads_walk
      (leads_visitScope Tree.visits_calm.inPhase.surveys (hE.inPhase Tree.defers_calm)) _ s
  obtain ⟨hu, hcalm⟩ := (hwalk.bind fun f => .pure f.dirty) h phase hphase
  have hpass : (t.note (.pass s)).passCount = t.passCount + 1 := List.countP_cons_of_pos rfl
  exact ⟨hu, hcalm.passes.trans hpass, hcalm.starts⟩

/-- A round makes one pass. -/
lemma Round.counts {dirty : Bool} (h : E.Round s dirty t u) :
    u.phase = some phase ∧ u.passCount = t.passCount + 1 ∧
      u.startCount .postDigest = t.startCount .postDigest := by
  obtain ⟨v, hdrain, hpass⟩ := h
  obtain ⟨hv, hcalm⟩ := calm_drain hE Queue.noConfusion hdrain phase hphase
  obtain ⟨hu, hpasses, hstarts⟩ := counts_of_pass hE hv hpass
  exact ⟨hu, hpasses.trans (congrArg (· + 1) hcalm.passes), hstarts.trans hcalm.starts⟩

/-- So many rounds make so many passes. -/
theorem Rounds.counts (h : E.Rounds s n t u) :
    u.phase = some phase ∧ u.passCount = t.passCount + n ∧
      u.startCount .postDigest = t.startCount .postDigest := by
  induction h with
  | none => exact ⟨hphase, rfl, rfl⟩
  | more hround _ _ ih =>
    obtain ⟨hu, hpasses, hstarts⟩ := hround.counts hE hphase
    obtain ⟨hv, hpasses', hstarts'⟩ := ih hu
    exact ⟨hv, by omega, hstarts'.trans hstarts⟩

end Governed

/-! ## Where a loop settles -/

/-- The pass of this number is the first that finds nothing dirty and leaves no task. -/
def SettlesAt (E : Engine κ σ) (s : ScopeId) (n : ℕ) (t u : Tree κ σ) : Prop :=
  ∃ k v, n = k + 1 ∧ E.Rounds s k t v ∧ E.Round s false v u ∧ u.queues.async = []

lemma SettlesAt.counts (h : E.SettlesAt s n t u) (hE : E.Governed) {phase : Phase}
    (hphase : t.phase = some phase) : u.phase = some phase ∧ u.passCount = t.passCount + n ∧
      u.startCount .postDigest = t.startCount .postDigest := by
  obtain ⟨k, v, rfl, hrounds, hlast, -⟩ := h
  obtain ⟨hv, hpasses, hstarts⟩ := hrounds.counts hE hphase
  obtain ⟨hu, hpasses', hstarts'⟩ := hlast.counts hE hv
  exact ⟨hu, by omega, hstarts'.trans hstarts⟩

lemma Round.unique {dirty dirty' : Bool} (h : E.Round s dirty t u) (h' : E.Round s dirty' t v) :
    dirty = dirty' ∧ u = v := by
  obtain ⟨w, hdrain, hpass⟩ := h
  obtain ⟨w', hdrain', hpass'⟩ := h'
  cases hdrain.symm.trans hdrain'
  cases hpass.symm.trans hpass'
  exact ⟨rfl, rfl⟩

/-- A loop that goes on after so many rounds has not settled in one of them. -/
lemma Rounds.not_settlesAt {m : ℕ} (h : E.Rounds s m t u) (hn : n ≤ m) : ¬ E.SettlesAt s n t v := by
  induction h generalizing n with
  | none =>
    rintro ⟨k, w, rfl, -, -, -⟩
    omega
  | more hround hunsettled _ ih =>
    rintro ⟨k, w, rfl, hrounds, hlast, hempty⟩
    cases hrounds with
    | none =>
      obtain ⟨rfl, rfl⟩ := hround.unique hlast
      rcases hunsettled with hdirty | hasync
      · cases hdirty
      · exact hasync hempty
    | more hround' _ hrest =>
      obtain ⟨-, rfl⟩ := hround.unique hround'
      exact ih (by omega) ⟨_, w, rfl, hrest, hlast, hempty⟩

end Engine

/-! ## Digests -/

namespace Host

variable {H : Host κ σ} {s : ScopeId} {t u v : Tree κ σ}

/-- A queue is drained to its end, or without end. -/
lemma ends_drain_iff {q : Queue} :
    (∃ u, H.Ends (·.drain q) t (.ok ()) u) ↔ ¬ H.Endless (·.drain q) t := by
  constructor
  · rintro ⟨u, hends⟩ hendless
    exact hendless.not_ends hends
  · intro hnot
    obtain ⟨r, u, limit, hrun⟩ := (ends_or_endless (·.drain q) t).resolve_right hnot
    obtain rfl := Engine.ok_of_drainWithin hrun
    exact ⟨u, limit, hrun⟩

/-- A digest comes to its end just if its loop does and, should that settle, the queue for the end
of the digest is drained to its end. -/
theorem ends_digest_iff (hidle : t.phase = none) : (∃ r u, H.Ends (·.digest s) t r u) ↔
    (¬ H.Hangs s t ∧ ¬ H.Overworks s t ∧ ¬ H.Deepens s t) ∧
      ∀ ttl v, H.Ends (·.loop s) t (.ok (true, ttl)) v →
        ∃ u, H.Ends (·.drain .postDigest) (v.leave .digest) (.ok ()) u := by
  let finish : Engine κ σ → Bool × ℕ → Routine κ σ Unit := fun E x =>
    Engine.leave .digest >>= fun _ => if x.1 then E.drain .postDigest else throw (.divergence x.2)
  have hfinish : ∀ x, H.Rising fun E => finish E x := by
    rintro ⟨settled, ttl⟩
    refine (rising_const _).bind fun _ => ?_
    cases settled with
    | true => exact rising_drain .postDigest
    | false => exact rising_const _
  have hdigest : H.Endless (·.digest s) t ↔ H.Endless (·.loop s) t ∨
      ∃ x v, H.Ends (·.loop s) t (.ok x) v ∧ H.Endless (fun E => finish E x) v := by
    simp only [Engine.digest_eq_loop]
    exact endless_bind_iff (rising_loop s) hfinish
  have hends : (∃ r u, H.Ends (·.digest s) t r u) ↔ ¬ H.Endless (·.digest s) t := by
    refine ⟨?_, (ends_or_endless (·.digest s) t).resolve_right⟩
    rintro ⟨r, u, h⟩ hendless
    exact hendless.not_ends h
  rw [hends, hdigest, endless_loop_iff hidle, not_or, not_or, not_or]
  refine and_congr_right fun _ => ?_
  constructor
  · intro hnot ttl v hloop
    refine ends_drain_iff.2 fun hendless => hnot ⟨(true, ttl), v, hloop, ?_⟩
    exact endless_change_bind_iff.2 hendless
  · rintro hpost ⟨⟨settled, ttl⟩, v, hloop, hendless⟩
    replace hendless := endless_change_bind_iff.1 hendless
    cases settled with
    | true => exact ends_drain_iff.1 (hpost ttl v hloop) hendless
    | false => exact hendless.not_ends ⟨0, rfl⟩

/-- A digest that is begun while no phase is active comes to its end just if what it calls returns
and its drains and passes run out; and if it does, it has made between one and so many passes as the
configuration allows it to repeat and one.

It succeeds at the first of these passes that finds nothing dirty and leaves no task, and then it
runs the tasks for its end until none is left.  If there is no such pass among them it has made all,
fails, and runs none of these tasks.  None of them is run before its phase has ended either way. -/
theorem digest_outcome (H : Host κ σ) (s : ScopeId) {t : Tree κ σ} (hidle : t.phase = none) :
    ((∃ r u, H.Ends (·.digest s) t r u) ↔
      (¬ H.Hangs s t ∧ ¬ H.Overworks s t ∧ ¬ H.Deepens s t) ∧
        ∀ ttl v, H.Ends (·.loop s) t (.ok (true, ttl)) v →
          ∃ u, H.Ends (·.drain .postDigest) (v.leave .digest) (.ok ()) u) ∧
    ∀ limit r u, runOn ((H.engine limit).digest s) t = some (r, u) →
      ∃ v w n, runOn ((H.engine limit).drain .apply) t.begun = some (.ok (), v) ∧
        1 ≤ n ∧ n ≤ t.config.digestTtl + 1 ∧ w.passCount = t.passCount + n ∧
        w.startCount .postDigest = t.startCount .postDigest ∧
        w.phase = some .digest ∧ (w.leave .digest).phase = none ∧ u.phase = none ∧
        ((H.engine limit).SettlesAt s n v w ∧ r = .ok () ∧
            runOn ((H.engine limit).drain .postDigest) (w.leave .digest) = some (.ok (), u) ∧
            u.queues.postDigest = [] ∨
          (∀ m x, m ≤ t.config.digestTtl + 1 → ¬ (H.engine limit).SettlesAt s m v x) ∧
            n = t.config.digestTtl + 1 ∧ (H.engine limit).Rounds s n v w ∧
            r = .error (.divergence t.config.digestTtl) ∧ u = w.leave .digest) := by
  refine ⟨ends_digest_iff hidle, fun limit r u hrun => ?_⟩
  have hE := H.governed limit
  have hpassage := (H.tame_passage limit).digest s hrun
  obtain ⟨settled, v, w, hdrain, hpasses, hend⟩ := Engine.runOn_digest_cases hidle hrun
  obtain ⟨hvphase, hopened⟩ := Engine.inPhase_drain hE .apply hdrain _ (Engine.phase_begun t)
  obtain ⟨-, hcalm⟩ :=
    Engine.calm_drain hE Queue.noConfusion hdrain _ (Engine.phase_begun t)
  have hconfig : v.config = t.config := hopened.config.trans (Engine.config_begun t)
  have hcalm' : t.Calm v := trans_of Calm (.of_step (Engine.journal_begun t) rfl rfl) hcalm
  rw [hconfig] at hpasses hend
  have huphase : u.phase = none := hpassage.phase.trans hidle
  rcases hend with ⟨rfl, rfl, hpost⟩ | ⟨rfl, rfl, rfl⟩
  · obtain ⟨k, x, hk, hrounds, hlast, hempty⟩ := Engine.rounds_of_settled hpasses
    have hsettles : (H.engine limit).SettlesAt s (k + 1) v w :=
      ⟨k, x, rfl, hrounds, hlast, hempty⟩
    obtain ⟨hphase, hcount, hstarts⟩ := hsettles.counts hE hvphase
    exact ⟨v, w, k + 1, hdrain, Nat.succ_pos k, Nat.succ_le_succ hk,
      hcount.trans (congrArg (· + (k + 1)) hcalm'.passes), hstarts.trans hcalm'.starts, hphase, rfl,
      huphase, .inl ⟨hsettles, rfl, hpost, Engine.tasks_of_drainWithin hpost⟩⟩
  · have hrounds := Engine.rounds_of_not_settled hpasses
    obtain ⟨hphase, hcount, hstarts⟩ := hrounds.counts hE hvphase
    exact ⟨v, w, t.config.digestTtl + 1, hdrain, Nat.succ_pos _, le_rfl,
      hcount.trans (congrArg (· + (t.config.digestTtl + 1)) hcalm'.passes),
      hstarts.trans hcalm'.starts, hphase, rfl, huphase,
      .inr ⟨fun m x hm => hrounds.not_settlesAt hm, rfl, hrounds, rfl, rfl⟩⟩

end Host

/-! ## A host whose watcher is never clean -/

/-- The procedures of a host that observes a new array each time. -/
inductive Restless where
  | observe
  | ignore

/-- A host with a watch function that never sees the same value twice. -/
def restless : Host Restless Unit where
  library := ⟨fun _ _ _ => .endless, fun _ _ => .endless⟩
  report := fun _ host => host
  procedure
    | .observe, _ => do
      let a ← Program.compute (Store.making (·.newArray #[]))
      return .array a
    | .ignore, _ => return .undefined

/-- Watches it, and leaves a task for the end of a digest. -/
def restlessSetup : Program Restless Unit Unit := do
  discard <| Program.request (.watch rootId .observe .ignore false)
  Program.request (.postDigest rootId .ignore)

/-- The digest of that tree, which may repeat one pass, and where it leaves it. -/
lemma restless_run : ∃ t, restless.run 9 restlessSetup
      (.plant ⟨.empty, ()⟩ ⟨.empty, .empty⟩ { digestTtl := 1 } false) = some (.ok (), t) ∧
    t.phase = none ∧ t.config.digestTtl = 1 ∧
    ∃ u, runOn ((restless.engine 9).digest rootId) t = some (.error (.divergence 1), u) ∧
      u.queues.postDigest.length = 1 := by
  generalize hx : restless.run 9 restlessSetup _ = x
  cbv at hx
  subst hx
  refine ⟨_, rfl, rfl, rfl, ?_⟩
  generalize hy : runOn _ _ = y
  cbv at hy
  subst hy
  exact ⟨_, rfl, rfl⟩

/-- That digest gives up after its second pass and leaves the task where it is. -/
theorem restless_diverges : ∃ t u, restless.run 9 restlessSetup
      (.plant ⟨.empty, ()⟩ ⟨.empty, .empty⟩ { digestTtl := 1 } false) = some (.ok (), t) ∧
    t.phase = none ∧
    runOn ((restless.engine 9).digest rootId) t = some (.error (.divergence 1), u) ∧
    u.passCount = t.passCount + 2 ∧ u.startCount .postDigest = t.startCount .postDigest ∧
    u.phase = none ∧ u.queues.postDigest.length = 1 := by
  obtain ⟨t, hsetup, hidle, httl, u, hrun, hlength⟩ := restless_run
  obtain ⟨v, w, n, -, -, -, hcount, hstarts, -, -, hphase, ⟨-, hr, -⟩ | ⟨-, hn, -, -, hu⟩⟩ :=
    (restless.digest_outcome rootId hidle).2 9 _ u hrun
  · cases hr
  · have hpasses : u.passCount = w.passCount := by rw [hu]; rfl
    have hstarts' : u.startCount .postDigest = w.startCount .postDigest := by rw [hu]; rfl
    refine ⟨t, u, hsetup, hidle, hrun, ?_, hstarts'.trans hstarts, hphase, hlength⟩
    rw [hpasses, hcount, hn, httl]

end DataBinding
