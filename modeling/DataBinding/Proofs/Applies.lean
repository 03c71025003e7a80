import DataBinding.Proofs.Stages

/-!
# What follows a task for an apply

A task that was queued for an apply is run by a digest at its beginning, or by the deferred apply.
A pass comes after it before that call returns, and the first one is a pass from the scope that the
call digests (`Host.applied_by_pass`): from the root if it is the deferred apply, an apply that was
asked for or a digest of the root, and from another scope if it is a digest of that scope.

So a task that was queued on the root may be run by a digest that never comes to the watchers of the
root (`regional_skips_root`).
-/

namespace DataBinding

open Compute (runOn)

variable {κ σ α : Type}

/-! ## Passes in the journal -/

namespace Tree

variable {t u v : Tree κ σ} {s : ScopeId}

/-- The journal has grown, and no pass has begun. -/
def Unpassed (t u : Tree κ σ) : Prop :=
  ∃ steps, u.journal = steps ++ t.journal ∧ ∀ s, .pass s ∉ steps

/-- The journal has grown, and the first pass that has begun is one from the scope. -/
def PassedFrom (s : ScopeId) (t u : Tree κ σ) : Prop :=
  ∃ before after, u.journal = after ++ .pass s :: (before ++ t.journal) ∧ ∀ s', .pass s' ∉ before

lemma Unpassed.refl (t : Tree κ σ) : Unpassed t t := ⟨[], rfl, fun _ => List.not_mem_nil⟩

lemma Unpassed.of_journal (h : Unpassed t u) (hv : v.journal = u.journal) : Unpassed t v := by
  obtain ⟨steps, hsteps, hnone⟩ := h
  exact ⟨steps, hv.trans hsteps, hnone⟩

lemma Unpassed.of_step (h : Unpassed t u) {step : Step κ} (hv : v.journal = step :: u.journal)
    (hstep : ∀ s, step ≠ .pass s) : Unpassed t v := by
  obtain ⟨steps, hsteps, hnone⟩ := h
  refine ⟨step :: steps, hv.trans (congrArg _ hsteps), fun s hmem => ?_⟩
  rcases List.mem_cons.1 hmem with heq | hmem
  · exact hstep s heq.symm
  · exact hnone s hmem

lemma Unpassed.pass (h : Unpassed t u) (s : ScopeId) : PassedFrom s t (u.note (.pass s)) := by
  obtain ⟨steps, hsteps, hnone⟩ := h
  exact ⟨steps, [], congrArg (Step.pass s :: ·) hsteps, hnone⟩

lemma Unpassed.touch (h : Unpassed t u) (htouch : u.Touch v) : Unpassed t v := by
  rcases htouch.journal with heq | ⟨step, hstep, heq⟩
  · exact h.of_journal heq
  · refine h.of_step heq fun s hpass => ?_
    rw [hpass] at hstep
    rcases hstep with hstep | ⟨_, hstep⟩ <;> cases hstep

lemma Unpassed.takesJob (h : Unpassed t u) {job : Job} (htakes : u.TakesJob job v) :
    Unpassed t v := by
  obtain ⟨_, -, rfl⟩ := htakes.takes
  exact h.of_step rfl nofun

lemma Unpassed.dequeue? (h : Unpassed t u) {q : Queue} {task : Task κ}
    (hnext : u.dequeue? q = some (task, v)) : Unpassed t v := by
  obtain ⟨_, rfl⟩ := eq_of_dequeue? hnext
  exact h.of_step rfl nofun

lemma PassedFrom.extend (h : PassedFrom s t u) {steps : List (Step κ)}
    (hv : v.journal = steps ++ u.journal) : PassedFrom s t v := by
  obtain ⟨before, after, hu, hnone⟩ := h
  exact ⟨before, steps ++ after, by rw [hv, hu, List.append_assoc], hnone⟩

/-- The tree once a call has begun that runs the tasks for an apply: a digest, or the deferred
apply. -/
def opened (t : Tree κ σ) : Stage → Tree κ σ
  | .draining _ => t.begun
  | _ => t.entering .apply

end Tree

/-! ## Calls that have not passed -/

/-- A pass from the scope is the next one that a call in this stage makes. -/
def Stage.PassesNext (s : ScopeId) : Stage → Prop
  | .draining s' => s' = s
  | .looping s' passed => s' = s ∧ passed = false
  | .flushing => s = rootId
  | .finishing _ | .applying | .applied => False

/-- A stage in no phase runs no tasks for an apply. -/
lemma Stage.queue?_ne_apply {stage : Stage} (h : stage.phase? = none) :
    stage.queue? ≠ some .apply := by
  cases stage with
  | finishing | applied => exact nofun
  | _ => cases h

namespace Situation

variable {begins : Stage → Tree κ σ → Prop} {m m' : Situation κ σ} {t : Tree κ σ} {s : ScopeId}
  {depth : ℕ}

/-- No pass has begun, and the next one is made by a call with so many below it. -/
structure Expects (t : Tree κ σ) (s : ScopeId) (depth : ℕ) (m : Situation κ σ) : Prop where
  call : ∃ stage stages, m.stages = stage :: stages ∧ depth ≤ stages.length ∧ stage.PassesNext s
  busy : m.tree.phase ≠ none
  unpassed : t.Unpassed m.tree

/-- A call that has not passed passes at some time, and no other call begins before. -/
theorem Advance.expects (h : Advance begins m m') (hm : Expects t s depth m) :
    Expects t s depth m' ∨ t.PassedFrom s m'.tree := by
  obtain ⟨⟨stage, stages, hstages, hdepth, hnext⟩, hbusy, hunpassed⟩ := hm
  have hstay : ∀ {u : Tree κ σ}, u.phase = m.tree.phase → t.Unpassed u →
      Expects t s depth ⟨m.stages, u⟩ := fun hphase hunpassed =>
    ⟨⟨stage, stages, hstages, hdepth, hnext⟩, hphase ▸ hbusy, hunpassed⟩
  cases h with
  | touch h => exact .inl (hstay h.phase (hunpassed.touch h))
  | runDigest h => exact .inl (hstay h.phase (hunpassed.takesJob h))
  | skipFlush h => exact .inl (hstay h.phase (hunpassed.takesJob h))
  | postponeFlush h => exact .inl (hstay h.phase ((hunpassed.takesJob h).of_step rfl nofun))
  | beginFlush _ _ hidle => exact absurd hidle hbusy
  | start _ h => exact .inl (hstay (phase_of_dequeue? h) (hunpassed.dequeue? h))
  | rearm _ h =>
    refine .inl (hstay ((Tree.Act.armApply _).phase.trans (phase_of_dequeue? h)) ?_)
    exact (hunpassed.dequeue? h).of_journal (Tree.journal_armApply _)
  | beginDigest hidle => exact absurd hidle hbusy
  | beginLoop =>
    cases hstages
    exact .inl ⟨⟨_, stages, rfl, hdepth, hnext, rfl⟩, hbusy, hunpassed⟩
  | pass =>
    cases hstages
    obtain ⟨rfl, -⟩ := hnext
    exact .inr (hunpassed.pass _)
  | endLoop =>
    cases hstages
    cases hnext.2
  | endDigest =>
    cases hstages
    exact hnext.elim
  | beginApply hidle => exact absurd hidle hbusy
  | @endBody _ _ t₀ hbody _ =>
    cases hstages
    -- the deferred apply goes on with a digest of the root
    obtain rfl : s = rootId := by
      cases stage with
      | flushing => exact hnext
      | applying => exact hnext.elim
      | _ => cases hbody
    have hleft : t.Unpassed (t₀.leave .apply) := hunpassed.of_step rfl nofun
    refine .inl ⟨⟨_, _, rfl, Nat.le_succ_of_le hdepth, rfl⟩, ?_, ?_⟩
    · rw [Engine.phase_begun]
      exact Option.some_ne_none _
    · exact hleft.of_step (Engine.journal_begun _) nofun
  | endApply =>
    cases hstages
    exact hnext.elim

lemma Reaches.expects (h : Reaches begins m m') (hm : Expects t s depth m) :
    Expects t s depth m' ∨ t.PassedFrom s m'.tree := by
  refine h.preserves (P := fun m => Expects t s depth m ∨ t.PassedFrom s m.tree)
    (fun hadvance hm => ?_) (.inl hm)
  rcases hm with hexpects | hpassed
  · exact hadvance.expects hexpects
  · obtain ⟨steps, hsteps, -⟩ := hadvance.journal
    exact .inr (hpassed.extend hsteps)

/-- A call that has returned has passed. -/
lemma Expects.passed (hm : Expects t s depth m) (h : Reaches begins m m')
    (hreturned : m'.stages.length ≤ depth) : t.PassedFrom s m'.tree := by
  refine (h.expects hm).resolve_left fun hexpects => ?_
  obtain ⟨stage, stages, hstages, hdepth, -⟩ := hexpects.call
  rw [hstages, List.length_cons] at hreturned
  omega

/-! ## Calls that have begun -/

/-- The calls below the last one are in no phase. -/
def Layered (m : Situation κ σ) : Prop := ∀ stage ∈ m.stages.tail, stage.phase? = none

/-- A call begins when no other one is in a phase. -/
lemma Advance.layered (h : Advance begins m m') (hagrees : m.Agrees) (hm : m.Layered) :
    m'.Layered := by
  have hidle : m.tree.phase = none → ∀ stage ∈ m.stages, stage.phase? = none := fun hidle =>
    List.filterMap_eq_nil_iff.1 (hagrees.trans (congrArg Option.toList hidle))
  cases h with
  | beginFlush _ _ h | beginDigest h | beginApply h => exact hidle h
  | endDigest | endApply => exact fun stage hstage => hm stage (List.mem_of_mem_tail hstage)
  | endBody =>
    intro stage hstage
    rcases List.mem_cons.1 hstage with rfl | hstage
    · rfl
    · exact hm stage hstage
  | _ => exact hm

/-- A call that runs the tasks for an apply has begun on the way, and no pass since. -/
theorem Reaches.exists_opened (h : Reaches begins m m') (hagrees : m.Agrees) (hm : m.stages = [])
    {stage : Stage} {stages : List Stage} (hstages : m'.stages = stage :: stages)
    (hqueue : stage.queue? = some .apply) :
    ∃ x, x.phase = none ∧ begins stage x ∧ Reaches begins m ⟨stage :: stages, x.opened stage⟩ ∧
      Reaches begins ⟨stage :: stages, x.opened stage⟩ m' ∧ (x.opened stage).Unpassed m'.tree := by
  have hlayered : ∀ {n}, Reaches begins m n → n.Agrees ∧ n.Layered := fun h =>
    h.preserves (P := fun n => n.Agrees ∧ n.Layered)
      (fun h hn => ⟨h.agrees hn.1, h.layered hn.1 hn.2⟩)
      ⟨hagrees, fun stage hstage => by simp [hm] at hstage⟩
  induction h generalizing stage stages with
  | refl => cases hm.symm.trans hstages
  | @tail n m' hreaches hadvance ih =>
    have hstay : n.stages = stage :: stages →
        (∀ {x : Tree κ σ}, x.Unpassed n.tree → x.Unpassed m'.tree) →
        ∃ x, x.phase = none ∧ begins stage x ∧
          Reaches begins m ⟨stage :: stages, x.opened stage⟩ ∧
          Reaches begins ⟨stage :: stages, x.opened stage⟩ m' ∧
          (x.opened stage).Unpassed m'.tree := by
      intro hn hunpassed
      obtain ⟨x, hidle, hbegins, hto, hfrom, hx⟩ := ih hn hqueue
      exact ⟨x, hidle, hbegins, hto, hfrom.tail hadvance, hunpassed hx⟩
    have hbelow : ¬ ∃ top, n.stages = top :: stage :: stages := by
      rintro ⟨top, hn⟩
      have hnone : stage.phase? = none := (hlayered hreaches).2 stage (by rw [hn]; exact .head _)
      exact Stage.queue?_ne_apply hnone hqueue
    have hbegun := hreaches.tail hadvance
    cases hadvance with
    | touch h => exact hstay hstages fun hx => hx.touch h
    | runDigest h => exact hstay hstages fun hx => hx.takesJob h
    | skipFlush h => exact hstay hstages fun hx => hx.takesJob h
    | postponeFlush h => exact hstay hstages fun hx => (hx.takesJob h).of_step rfl nofun
    | start _ h => exact hstay hstages fun hx => hx.dequeue? h
    | rearm _ h =>
      exact hstay hstages fun hx => (hx.dequeue? h).of_journal (Tree.journal_armApply _)
    | @beginFlush _ _ u _ h _ hidle hbegins =>
      cases hstages
      exact ⟨{ u with applyFlush := none }, h.phase.trans hidle, hbegins, hbegun, .refl, .refl _⟩
    | beginDigest hidle hbegins =>
      cases hstages
      exact ⟨_, hidle, hbegins, hbegun, .refl, .refl _⟩
    | endBody _ hbegins =>
      cases hstages
      exact ⟨_, rfl, hbegins, hbegun, .refl, .refl _⟩
    | beginLoop | pass | endLoop | beginApply =>
      cases hstages
      cases hqueue
    | endDigest | endApply => exact absurd ⟨_, congrArg _ hstages⟩ hbelow

end Situation

open Situation (Reaches Expects)

/-- Each task for an apply that a run has started was started by a call that digests some scope: by
a digest of this scope at its beginning, or by the deferred apply, which digests the root.  That
call is a run of the host, and has not passed yet.  The first pass after the start of the task is
one from this scope, and it has begun whenever the call has returned. -/
theorem Host.applied_by_pass {H : Host κ σ} {limit : ℕ} {p : Program κ σ α} {store : Store σ}
    {compiler : Compiler} {config : Config} {timed : Bool} {r : Except Error α} {u : Tree κ σ}
    (h : H.run limit p (.plant store compiler config timed) = some (r, u)) {number : ℕ}
    {later earlier : List (Step κ)}
    (hstarted : u.journal = later ++ .started .apply number :: earlier) :
    ∃ s stage stages t x, x.phase = none ∧ H.Opens stage x ∧
      Reaches H.Opens ⟨[], .plant store compiler config timed⟩
        ⟨stage :: stages, x.opened stage⟩ ∧
      Reaches H.Opens ⟨stage :: stages, x.opened stage⟩ ⟨stage :: stages, t⟩ ∧
      (x.opened stage).Unpassed t ∧ Reaches H.Opens ⟨stage :: stages, t⟩ ⟨[], u⟩ ∧
      t.journal = .started .apply number :: earlier ∧
      (stage = .draining s ∨ stage = .flushing ∧ s = rootId) ∧
      ∀ begins m, Reaches begins ⟨stage :: stages, t⟩ m → m.stages.length ≤ stages.length →
        t.PassedFrom s m.tree := by
  have hreaches := Host.reaches_of_run h []
  obtain ⟨stage, stages, t, hstage, hto, hfrom, ht⟩ :=
    hreaches.exists_of_started (hstarted.trans (by rw [← List.append_nil earlier]; rfl))
  obtain ⟨s, hcall⟩ : ∃ s, stage = .draining s ∨ stage = .flushing ∧ s = rootId := by
    cases stage with
    | draining s => exact ⟨s, .inl rfl⟩
    | flushing => exact ⟨rootId, .inr ⟨rfl, rfl⟩⟩
    | looping | finishing | applying | applied => cases hstage
  have happly : stage.queue? = some .apply := by rcases hcall with rfl | ⟨rfl, -⟩ <;> rfl
  obtain ⟨x, hidle, hopens, hbegun, hsince, hunpassed⟩ := hto.exists_opened rfl rfl rfl happly
  have hagrees : Situation.Agrees ⟨stage :: stages, t⟩ := hto.agrees rfl
  have hexpects : Expects t s stages.length ⟨stage :: stages, t⟩ := by
    rcases hcall with rfl | ⟨rfl, rfl⟩
    · have hphase := (hagrees.of_phase rfl).1
      exact ⟨⟨_, _, rfl, le_rfl, rfl⟩, hphase ▸ Option.some_ne_none _, .refl t⟩
    · have hphase := (hagrees.of_phase rfl).1
      exact ⟨⟨_, _, rfl, le_rfl, rfl⟩, hphase ▸ Option.some_ne_none _, .refl t⟩
  refine ⟨s, stage, stages, t, x, hidle, hopens, hbegun, hsince, hunpassed, hfrom, ?_, hcall,
    fun begins m hm => hexpects.passed hm⟩
  rw [ht]
  exact congrArg _ (List.append_nil earlier)

/-! ## A host that digests a part of the tree -/

/-- The procedure of a host that does nothing. -/
inductive Regional where
  | work

/-- A host whose procedure does nothing. -/
def regional : Host Regional Unit where
  library := ⟨fun _ _ _ => .endless, fun _ _ => .endless⟩
  report := fun _ host => host
  procedure _ _ := return .undefined

/-- Queues a task for an apply on the root, and digests a child of the root. -/
def regionalSetup : Program Regional Unit Unit := do
  let child ← Program.request (.newChild rootId false rootId)
  Program.request (.applyAsync rootId .work)
  Program.request (.digest child)

lemma regional_run : ∃ u, regional.run 9 regionalSetup
      (.plant ⟨.empty, ()⟩ ⟨.empty, .empty⟩ {} false) = some (.ok (), u) ∧
    u.journal.reverse = [.queued .apply 0, .entered .digest, .started .apply 0,
      .called .work (.task rootId), .pass 1, .left .digest] := by
  generalize hx : regional.run 9 regionalSetup _ = x
  cbv at hx
  subst hx
  exact ⟨_, rfl, rfl⟩

/-- The task is started by the digest of the child, and a pass from the child follows. -/
theorem regional_applies : ∃ u s stage stages t x, regional.run 9 regionalSetup
      (.plant ⟨.empty, ()⟩ ⟨.empty, .empty⟩ {} false) = some (.ok (), u) ∧
    x.phase = none ∧ regional.Opens stage x ∧
    Reaches regional.Opens ⟨stage :: stages, x.opened stage⟩ ⟨stage :: stages, t⟩ ∧
    t.journal = [.started .apply 0, .entered .digest, .queued .apply 0] ∧
    Reaches regional.Opens ⟨stage :: stages, t⟩ ⟨[], u⟩ ∧
    (stage = .draining s ∨ stage = .flushing ∧ s = rootId) ∧ t.PassedFrom s u := by
  obtain ⟨u, hrun, hjournal⟩ := regional_run
  have hstarted : u.journal = [.left .digest, .pass 1, .called .work (.task rootId)] ++
      .started .apply 0 :: [.entered .digest, .queued .apply 0] := by
    rw [← u.journal.reverse_reverse, hjournal]
    rfl
  obtain ⟨s, stage, stages, t, x, hidle, hopens, -, hsince, -, hfrom, ht, hcall, hpassed⟩ :=
    Host.applied_by_pass hrun hstarted
  exact ⟨u, s, stage, stages, t, x, hrun, hidle, hopens, hsince, ht, hfrom, hcall,
    hpassed _ _ hfrom (Nat.zero_le _)⟩

/-- So a task for an apply may be run, and the call that has run it return, without any pass from
the root. -/
theorem regional_skips_root : ∃ u, regional.run 9 regionalSetup
      (.plant ⟨.empty, ()⟩ ⟨.empty, .empty⟩ {} false) = some (.ok (), u) ∧
    .started .apply 0 ∈ u.journal ∧ .pass rootId ∉ u.journal := by
  obtain ⟨u, hrun, hjournal⟩ := regional_run
  refine ⟨u, hrun, ?_, ?_⟩
  · rw [← List.mem_reverse, hjournal]
    simp
  · rw [← List.mem_reverse, hjournal]
    simp [rootId]

end DataBinding
