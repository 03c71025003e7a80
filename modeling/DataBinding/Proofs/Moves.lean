import DataBinding.Proofs.Rounds
import DataBinding.Proofs.Waiting

/-!
# Moments and moves

While a host runs, digests and applies are asked for from within each other: by tasks, by listeners,
by the deferred jobs that a procedure flushes.  A moment of a run is the tree at that time together
with the calls that have not returned yet (`Moment`): the digests and applies that were accepted,
and the tasks that are at work.  `Moment.Move` says which moment can be next, and a `Moment.Path` is
made of moves.

A call knows the trees that it comes to: a digest in its loop knows the one at the end of the loop,
and the one that it returns with.  It ends there and nowhere else.  Where a call may begin is left
to a relation `begins`, so what holds of all paths holds whatever that relation is.

Phases do not overlap: the phase of the tree is that of the one call that is in a phase, and there
is none if no call is (`Moment.Agrees`).  Every move keeps it so (`Moment.Move.agrees`), hence every
path does.  So phases begin and end in turn, and the journal of the tree tells of them in that order
(`Moment.Move.inTurn`).

A path lists the dealings with tasks on its way: which task came into which queue, and which task
was started from which queue.  It has a moment for every step that the journal tells of
(`Moment.Path.exists_of_noted`), and one for the beginning of every call
(`Moment.Path.exists_of_mem`).
-/

namespace DataBinding

variable {κ σ : Type}

/-! ## Elementary changes -/

/-- A single change of a tree that neither begins nor ends a phase, nor deals with tasks. -/
inductive Tree.Change : Tree κ σ → Tree κ σ → Prop
  | act {t u : Tree κ σ} (h : t.Act u) (hqueues : u.queues = t.queues) : Change t u
  | tick {t u : Tree κ σ} (h : t.Tick u) : Change t u
  | beginDestroy (t : Tree κ σ) (s : ScopeId) : Change t (t.beginDestroy s)
  | tearDown (t : Tree κ σ) (s : ScopeId) : Change t (t.tearDown s)
  | checked (t : Tree κ σ) (w : WatcherId) : Change t (t.note (.checked w))
  | setKind (t : Tree κ σ) (w : WatcherId) (kind : WatchKind κ) : Change t (t.setKind w kind)
  | record {t u : Tree κ σ} {w : WatcherId} {new : Value} {change : Option DataBinding.Change}
    (h : t.record w new = some (change, u)) : Change t u
  | dirty (t : Tree κ σ) (w : WatcherId) : Change t { t with lastDirty := some w }
  | pass (t : Tree κ σ) (s : ScopeId) : Change t (t.note (.pass s))

namespace Tree.Change

variable {t u : Tree κ σ}

lemma phase (h : t.Change u) : u.phase = t.phase := by
  cases h with
  | act h => exact h.phase
  | tick h => exact h.phase
  | tearDown s => exact phase_tearDown t s
  | record h => exact phase_of_record h
  | _ => rfl

lemma queues (h : t.Change u) : u.queues = t.queues := by
  cases h with
  | act _ hqueues => exact hqueues
  | tick h => exact h.queues
  | tearDown s => exact queues_tearDown t s
  | record h =>
    obtain ⟨_, _, rfl⟩ := eq_of_record h
    rfl
  | _ => rfl

/-- A change notes one step at most. -/
lemma journal (h : t.Change u) :
    u.journal = t.journal ∨ ∃ step : Step κ, u.journal = step :: t.journal := by
  cases h with
  | act h => exact h.journal.imp_right fun ⟨step, _, h⟩ => ⟨step, h⟩
  | tick h => exact h.journal.imp_right fun ⟨_, h⟩ => ⟨_, h⟩
  | tearDown s => exact .inl (journal_tearDown t s)
  | record h =>
    obtain ⟨_, _, rfl⟩ := eq_of_record h
    exact .inl rfl
  | checked | pass => exact .inr ⟨_, rfl⟩
  | _ => exact .inl rfl

end Tree.Change

/-! ## Phases in the journal -/

/-- Whether a step begins or ends a phase. -/
def Step.ofPhase : Step κ → Bool
  | .entered _ | .left _ => true
  | _ => false

namespace Tree

variable {t u : Tree κ σ}

/-- The beginnings and ends of phases so far, the last one first. -/
def phaseSteps (t : Tree κ σ) : List (Step κ) := t.journal.filter Step.ofPhase

lemma phaseSteps_of_journal (h : u.journal = t.journal) : u.phaseSteps = t.phaseSteps :=
  congrArg (List.filter Step.ofPhase) h

lemma phaseSteps_of_step {step : Step κ} (h : u.journal = step :: t.journal)
    (hstep : step.ofPhase = false) : u.phaseSteps = t.phaseSteps := by
  rw [phaseSteps, h, List.filter_cons_of_neg (by simp [hstep]), phaseSteps]

lemma phaseSteps_of_phase {step : Step κ} (h : u.journal = step :: t.journal)
    (hstep : step.ofPhase = true) : u.phaseSteps = step :: t.phaseSteps := by
  rw [phaseSteps, h, List.filter_cons_of_pos hstep, phaseSteps]

lemma Act.phaseSteps (h : t.Act u) : u.phaseSteps = t.phaseSteps := by
  rcases h.journal with h | ⟨step, hstep, h⟩
  · exact phaseSteps_of_journal h
  · cases step with
    | queued | called | reported => exact phaseSteps_of_step h rfl
    | _ => cases hstep

lemma Change.phaseSteps (h : t.Change u) : u.phaseSteps = t.phaseSteps := by
  cases h with
  | act h => exact h.phaseSteps
  | tick h =>
    rcases h.journal with h | ⟨job, h⟩
    · exact phaseSteps_of_journal h
    · exact phaseSteps_of_step h rfl
  | tearDown s => exact phaseSteps_of_journal (journal_tearDown t s)
  | checked => exact phaseSteps_of_step rfl rfl
  | pass => exact phaseSteps_of_step rfl rfl
  | record h =>
    obtain ⟨_, _, rfl⟩ := eq_of_record h
    rfl
  | _ => rfl

lemma phaseSteps_of_dequeue? {q : Queue} {task : Task κ} (h : t.dequeue? q = some (task, u)) :
    u.phaseSteps = t.phaseSteps := by
  obtain ⟨_, rfl⟩ := eq_of_dequeue? h
  exact phaseSteps_of_step rfl rfl

end Tree

/-- Phases begin and end in turn, and the one that has begun and not ended is the given one. -/
inductive InTurn : Option Phase → List (Step κ) → Prop
  | none : InTurn none []
  | entered {steps : List (Step κ)} (phase : Phase) (h : InTurn none steps) :
    InTurn (some phase) (.entered phase :: steps)
  | left {steps : List (Step κ)} {phase : Phase} (h : InTurn (some phase) steps) :
    InTurn none (.left phase :: steps)

namespace InTurn

variable {active : Option Phase} {phase : Phase} {steps : List (Step κ)}

lemma eq_of_entered (h : InTurn active (.entered phase :: steps)) : active = some phase := by
  cases h
  rfl

lemma eq_of_left (h : InTurn active (.left phase :: steps)) : active = Option.none := by
  cases h
  rfl

end InTurn

/-! ## Moments and moves -/

/-- A call that has not returned.  A digest is in its loop, which ends at `w`, or after it, and
returns at `u`; an apply is in its body, which ends at `v`, or after it, and returns at `u`; a task
that was taken out of a queue is at work until `v`. -/
inductive Call (κ σ : Type) where
  | digesting (s : ScopeId) (w u : Tree κ σ)
  | digested (s : ScopeId) (u : Tree κ σ)
  | applying (v u : Tree κ σ)
  | applied (u : Tree κ σ)
  | working (q : Queue) (task : Task κ) (v : Tree κ σ)

/-- The phase that a call is in. -/
def Call.phase? : Call κ σ → Option Phase
  | .digesting _ _ _ => some .digest
  | .applying _ _ => some .apply
  | .digested _ _ | .applied _ | .working _ _ _ => none

/-- The phases that calls are in. -/
def Call.phases (calls : List (Call κ σ)) : List Phase := calls.filterMap Call.phase?

/-- A moment of a run: the calls that have not returned, the last one first, and the tree. -/
structure Moment (κ σ : Type) where
  calls : List (Call κ σ)
  tree : Tree κ σ

/-- A dealing with a task: it comes into a queue, or it is taken out of one and started. -/
inductive Dealing (κ : Type) where
  | queued (q : Queue) (task : Task κ)
  | started (q : Queue) (task : Task κ)

namespace Moment

/-- What can be the next moment, and the dealings on the way to it.  A call begins where it may, and
it goes on only from the tree that it knows. -/
inductive Move (begins : Call κ σ → Tree κ σ → Prop) :
    Moment κ σ → List (Dealing κ) → Moment κ σ → Prop
  | change {calls : List (Call κ σ)} {t u : Tree κ σ} (h : t.Change u) :
    Move begins ⟨calls, t⟩ [] ⟨calls, u⟩
  | queue {calls : List (Call κ σ)} {t u : Tree κ σ} {q : Queue} {s : ScopeId} {work : Work κ}
    (h : t.Act u) (hqueues : u.queues = t.queues.push q s work) :
    Move begins ⟨calls, t⟩ [.queued q ⟨t.queues.next, s, work⟩] ⟨calls, u⟩
  | start {calls : List (Call κ σ)} {t u v : Tree κ σ} {q : Queue} {task : Task κ}
    (h : t.dequeue? q = some (task, u)) (hbegins : begins (.working q task v) u) :
    Move begins ⟨calls, t⟩ [.started q task] ⟨.working q task v :: calls, u⟩
  | finish {calls : List (Call κ σ)} {v : Tree κ σ} {q : Queue} {task : Task κ} :
    Move begins ⟨.working q task v :: calls, v⟩ [] ⟨calls, v⟩
  | beginDigest {calls : List (Call κ σ)} {t w u : Tree κ σ} {s : ScopeId} (hidle : t.phase = none)
    (hbegins : begins (.digesting s w u) t) :
    Move begins ⟨calls, t⟩ [] ⟨.digesting s w u :: calls, t.begun⟩
  | endLoop {calls : List (Call κ σ)} {w u : Tree κ σ} {s : ScopeId} :
    Move begins ⟨.digesting s w u :: calls, w⟩ [] ⟨.digested s u :: calls, w.leave .digest⟩
  | endDigest {calls : List (Call κ σ)} {u : Tree κ σ} {s : ScopeId} :
    Move begins ⟨.digested s u :: calls, u⟩ [] ⟨calls, u⟩
  | beginApply {calls : List (Call κ σ)} {t v u : Tree κ σ} (hidle : t.phase = none)
    (hbegins : begins (.applying v u) t) :
    Move begins ⟨calls, t⟩ [] ⟨.applying v u :: calls, t.entering .apply⟩
  | endBody {calls : List (Call κ σ)} {v u : Tree κ σ} :
    Move begins ⟨.applying v u :: calls, v⟩ [] ⟨.applied u :: calls, v.leave .apply⟩
  | endApply {calls : List (Call κ σ)} {u : Tree κ σ} :
    Move begins ⟨.applied u :: calls, u⟩ [] ⟨calls, u⟩

/-- Moves one after another, and all their dealings. -/
inductive Path (begins : Call κ σ → Tree κ σ → Prop) :
    Moment κ σ → List (Dealing κ) → Moment κ σ → Prop
  | refl (m : Moment κ σ) : Path begins m [] m
  | more {m m' m'' : Moment κ σ} {ds ds' : List (Dealing κ)} (hpath : Path begins m ds m')
      (hmove : Move begins m' ds' m'') : Path begins m (ds ++ ds') m''

variable {begins : Call κ σ → Tree κ σ → Prop} {m m' m'' : Moment κ σ} {ds ds' : List (Dealing κ)}

lemma Move.path (h : Move begins m ds m') : Path begins m ds m' := .more (.refl m) h

lemma Path.trans (h : Path begins m ds m') (h' : Path begins m' ds' m'') :
    Path begins m (ds ++ ds') m'' := by
  induction h' with
  | refl =>
    rw [List.append_nil]
    exact h
  | more _ hmove ih =>
    rw [← List.append_assoc]
    exact .more ih hmove

/-! ## Calls below -/

/-- The same moment with more calls below. -/
def atop (m : Moment κ σ) (below : List (Call κ σ)) : Moment κ σ := ⟨m.calls ++ below, m.tree⟩

lemma Move.atop (h : Move begins m ds m') (below : List (Call κ σ)) :
    Move begins (m.atop below) ds (m'.atop below) := by
  cases h with
  | change h => exact .change h
  | queue h hqueues => exact .queue h hqueues
  | start h hbegins => exact .start h hbegins
  | finish => exact .finish
  | beginDigest hidle hbegins => exact .beginDigest hidle hbegins
  | endLoop => exact .endLoop
  | endDigest => exact .endDigest
  | beginApply hidle hbegins => exact .beginApply hidle hbegins
  | endBody => exact .endBody
  | endApply => exact .endApply

/-- A path does not depend on the calls below it. -/
lemma Path.atop (h : Path begins m ds m') (below : List (Call κ σ)) :
    Path begins (m.atop below) ds (m'.atop below) := by
  induction h with
  | refl => exact .refl _
  | more _ hmove ih => exact .more ih (hmove.atop below)

/-- A move leaves the calls below as they are, unless it ends or takes forward the last of them. -/
lemma Move.keeps {call : Call κ σ} {inner calls : List (Call κ σ)} (h : Move begins m ds m')
    (hcalls : m.calls = inner ++ call :: calls) :
    (∃ inner', m'.calls = inner' ++ call :: calls) ∨ m.calls = call :: calls := by
  cases inner with
  | nil => exact .inr hcalls
  | cons top inner =>
    left
    cases h with
    | change | queue => exact ⟨top :: inner, hcalls⟩
    | start | beginDigest | beginApply => exact ⟨_ :: top :: inner, congrArg _ hcalls⟩
    | finish | endDigest | endApply => exact ⟨inner, (List.cons.inj hcalls).2⟩
    | endLoop | endBody => exact ⟨_ :: inner, congrArg _ (List.cons.inj hcalls).2⟩

/-! ## Phases do not overlap -/

/-- One call is in a phase if the tree is in that phase, and none is if the tree is in none. -/
def Agrees (m : Moment κ σ) : Prop := Call.phases m.calls = m.tree.phase.toList

/-- If a call is in a phase, no other one is. -/
lemma Agrees.phases_eq_nil {calls : List (Call κ σ)} {t : Tree κ σ} {call : Call κ σ}
    {phase : Phase} (h : Agrees ⟨call :: calls, t⟩) (hcall : call.phase? = some phase) :
    Call.phases calls = [] := by
  have hcons : phase :: Call.phases calls = t.phase.toList :=
    (List.filterMap_cons_some hcall).symm.trans h
  cases hphase : t.phase with
  | none =>
    rw [hphase] at hcons
    cases hcons
  | some active =>
    rw [hphase] at hcons
    exact (List.cons.inj hcons).2

/-- Every move keeps the calls and the phase of the tree in agreement. -/
theorem Move.agrees (h : Move begins m ds m') (hm : m.Agrees) : m'.Agrees := by
  cases h with
  | change h => exact hm.trans (congrArg Option.toList h.phase.symm)
  | queue h => exact hm.trans (congrArg Option.toList h.phase.symm)
  | start h => exact hm.trans (congrArg Option.toList (phase_of_dequeue? h).symm)
  | @beginDigest calls t _ _ _ hidle =>
    have hnone : Call.phases calls = [] := hm.trans (congrArg Option.toList hidle)
    have hphase := congrArg Option.toList (Engine.phase_begun t)
    exact (congrArg (Phase.digest :: ·) hnone).trans hphase.symm
  | @beginApply calls t _ _ hidle =>
    have hnone : Call.phases calls = [] := hm.trans (congrArg Option.toList hidle)
    exact congrArg (Phase.apply :: ·) hnone
  | endLoop => exact hm.phases_eq_nil rfl
  | endBody => exact hm.phases_eq_nil rfl
  | finish => exact hm
  | endDigest => exact hm
  | endApply => exact hm

/-- The phase of the tree is that of a call. -/
lemma Agrees.phase_eq_iff (hm : m.Agrees) {phase : Phase} :
    m.tree.phase = some phase ↔ ∃ call ∈ m.calls, call.phase? = some phase := by
  have hmem : phase ∈ Call.phases m.calls ↔ m.tree.phase = some phase := by
    rw [hm, Option.mem_toList]
  rw [← hmem]
  exact List.mem_filterMap

/-- Every move has phases begin and end in turn. -/
theorem Move.inTurn (h : Move begins m ds m') (hm : m.Agrees)
    (hturn : InTurn m.tree.phase m.tree.phaseSteps) : InTurn m'.tree.phase m'.tree.phaseSteps := by
  cases h with
  | change h => rwa [h.phase, h.phaseSteps]
  | queue h => rwa [h.phase, h.phaseSteps]
  | start h => rwa [phase_of_dequeue? h, Tree.phaseSteps_of_dequeue? h]
  | @beginDigest _ t _ _ _ hidle =>
    rw [hidle] at hturn
    rw [Engine.phase_begun, Tree.phaseSteps_of_phase (Engine.journal_begun t) rfl]
    exact hturn.entered .digest
  | beginApply hidle =>
    rw [hidle] at hturn
    exact hturn.entered .apply
  | endLoop =>
    rw [hm.phase_eq_iff.2 ⟨_, .head _, rfl⟩] at hturn
    exact hturn.left
  | endBody =>
    rw [hm.phase_eq_iff.2 ⟨_, .head _, rfl⟩] at hturn
    exact hturn.left
  | finish => exact hturn
  | endDigest => exact hturn
  | endApply => exact hturn

lemma Path.agrees (h : Path begins m ds m') (hm : m.Agrees) : m'.Agrees := by
  induction h with
  | refl => exact hm
  | more _ hmove ih => exact hmove.agrees ih

lemma Path.inTurn (h : Path begins m ds m') (hm : m.Agrees)
    (hturn : InTurn m.tree.phase m.tree.phaseSteps) : InTurn m'.tree.phase m'.tree.phaseSteps := by
  induction h with
  | refl => exact hturn
  | more hpath hmove ih => exact hmove.inTurn (hpath.agrees hm) ih

/-! ## Moments on the way -/

/-- A move notes one step at most. -/
lemma Move.journal (h : Move begins m ds m') : m'.tree.journal = m.tree.journal ∨
    ∃ step, m'.tree.journal = step :: m.tree.journal := by
  cases h with
  | change h => exact h.journal
  | queue h => exact h.journal.imp_right fun ⟨step, _, h⟩ => ⟨step, h⟩
  | start h =>
    obtain ⟨_, rfl⟩ := Tree.eq_of_dequeue? h
    exact .inr ⟨_, rfl⟩
  | beginDigest => exact .inr ⟨_, Engine.journal_begun _⟩
  | beginApply | endLoop | endBody => exact .inr ⟨_, rfl⟩
  | finish | endDigest | endApply => exact .inl rfl

/-- On the way there is a moment for each step that was noted: the one at which it is the last. -/
theorem Path.exists_of_noted (h : Path begins m ds m') {step : Step κ}
    {later earlier : List (Step κ)}
    (hnoted : m'.tree.journal = later ++ step :: (earlier ++ m.tree.journal)) :
    ∃ n ds₁ ds₂, ds₁ ++ ds₂ = ds ∧ Path begins m ds₁ n ∧ Path begins n ds₂ m' ∧
      n.tree.journal = step :: (earlier ++ m.tree.journal) := by
  induction h generalizing later with
  | refl =>
    have hlength := congrArg List.length hnoted
    simp only [List.length_append, List.length_cons] at hlength
    omega
  | @more n m' ds ds' hpath hmove ih =>
    -- the step is the last one that the path has noted, or it was noted before the last move
    have hcases : m'.tree.journal = step :: (earlier ++ m.tree.journal) ∨
        ∃ later, n.tree.journal = later ++ step :: (earlier ++ m.tree.journal) := by
      rcases hmove.journal with hsame | ⟨last, hlast⟩
      · exact .inr ⟨later, hsame.symm.trans hnoted⟩
      · cases later with
        | nil => exact .inl hnoted
        | cons first later => exact .inr ⟨later, (List.cons.inj (hlast.symm.trans hnoted)).2⟩
    rcases hcases with hlast | ⟨later, hlater⟩
    · exact ⟨m', _, [], List.append_nil _, hpath.more hmove, .refl m', hlast⟩
    · obtain ⟨k, ds₁, ds₂, rfl, hto, hfrom, hk⟩ := ih hlater
      exact ⟨k, ds₁, ds₂ ++ ds', (List.append_assoc ..).symm, hto, hfrom.more hmove, hk⟩

/-- A call that is in a phase after a move was there before, or it begins with the move. -/
lemma Move.mem_cases (h : Move begins m ds m') {call : Call κ σ} (hcall : call ∈ m'.calls)
    (hphase : call.phase? ≠ none) :
    call ∈ m.calls ∨
      ds = [] ∧ ∃ u, m' = ⟨call :: m.calls, u⟩ ∧ m.tree.phase = none ∧ begins call m.tree := by
  cases h with
  | change | queue => exact .inl hcall
  | start =>
    obtain rfl | hcall := List.mem_cons.1 hcall
    · exact absurd rfl hphase
    · exact .inl hcall
  | finish | endDigest | endApply => exact .inl (.tail _ hcall)
  | endLoop | endBody =>
    obtain rfl | hcall := List.mem_cons.1 hcall
    · exact absurd rfl hphase
    · exact .inl (.tail _ hcall)
  | beginDigest hidle hbegins | beginApply hidle hbegins =>
    obtain rfl | hcall := List.mem_cons.1 hcall
    · exact .inr ⟨rfl, _, rfl, hidle, hbegins⟩
    · exact .inl hcall

/-- A call that is in a phase has begun on the way, unless it had at its start. -/
theorem Path.exists_of_mem (h : Path begins m ds m') {call : Call κ σ} (hcall : call ∈ m'.calls)
    (hphase : call.phase? ≠ none) :
    call ∈ m.calls ∨ ∃ calls t u ds₁ ds₂, ds₁ ++ ds₂ = ds ∧ Path begins m ds₁ ⟨calls, t⟩ ∧
      t.phase = none ∧ begins call t ∧ Move begins ⟨calls, t⟩ [] ⟨call :: calls, u⟩ ∧
      Path begins ⟨call :: calls, u⟩ ds₂ m' := by
  induction h with
  | refl => exact .inl hcall
  | @more n m' ds ds' hpath hmove ih =>
    rcases hmove.mem_cases hcall hphase with hbefore | ⟨rfl, u, rfl, hidle, hbegins⟩
    · refine (ih hbefore).imp_right ?_
      rintro ⟨calls, t, u, ds₁, ds₂, rfl, hto, hidle, hbegins, hbegin, hfrom⟩
      exact ⟨calls, t, u, ds₁, ds₂ ++ ds', (List.append_assoc ..).symm, hto, hidle, hbegins, hbegin,
        hfrom.more hmove⟩
    · exact .inr ⟨n.calls, n.tree, u, ds, [], rfl, hpath, hidle, hbegins, hmove, .refl _⟩

end Moment

end DataBinding
