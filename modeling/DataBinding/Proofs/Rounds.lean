import DataBinding.Proofs.Interlude
import DataBinding.Proofs.Turns

/-!
# The loop of a digest

A digest opens with the tasks that wait for an apply, and then goes round: it runs the tasks that
wait for a pass, and passes.  A round that finds nothing dirty and leaves no task settles the
digest.  `Engine.loop` is a digest up to that moment, or up to the moment at which the rounds that
the configuration allows are spent.

The rounds of a loop that comes to its end are `Engine.Rounds`, with their number.

At the end of its loop the phase of a digest ends, and the tasks for its end run if it settled
(`Engine.runOn_digest_cases`).  An apply runs its body in a phase of its own and then digests
(`Engine.runOn_apply_cases`).
-/

namespace DataBinding

/-- The tree at the beginning of a digest. -/
def Tree.begun {κ σ : Type} (t : Tree κ σ) : Tree κ σ :=
  { { t with phase := some .digest }.note (.entered .digest) with lastDirty := none }.cancelApply

/-- Whether a step begins a pass. -/
def Step.isPass {κ : Type} : Step κ → Bool
  | .pass _ => true
  | _ => false

/-- The number of passes so far. -/
def Tree.passCount {κ σ : Type} (t : Tree κ σ) : ℕ := t.journal.countP Step.isPass

open Compute (Leads runOn runOn_bind_cases)
open DataBinding.Tree (Grows InPhase Interlude)

/-! ## Walks without errors -/

namespace Routine

variable {κ σ ι : Type} {t u : Tree κ σ} {s : ScopeId} {d : ℕ}

lemma ok_of_inOrder {visit : ι → Routine κ σ Findings}
    (hvisit : ∀ {i t r u}, runOn (visit i) t = some (r, u) → ∃ f, r = .ok f) {l : List ι}
    {r : Except Error Findings} (h : runOn (inOrder visit l) t = some (r, u)) : ∃ f, r = .ok f := by
  induction l generalizing t r with
  | nil =>
    cases h
    exact ⟨_, rfl⟩
  | cons i l ih =>
    rcases runOn_andThen_cases h with ⟨e, hrun, -⟩ | ⟨f, -, -, rfl⟩ | ⟨f, v, r₂, -, -, hrun, rfl⟩
    · obtain ⟨f, hf⟩ := hvisit hrun
      cases hf
    · exact ⟨f, rfl⟩
    · obtain ⟨g, rfl⟩ := ih hrun
      exact ⟨_, rfl⟩

lemma ok_of_walk {visit : ScopeId → Routine κ σ Findings}
    (hvisit : ∀ {a t r u}, runOn (visit a) t = some (r, u) → ∃ f, r = .ok f)
    {r : Except Error Findings} (h : runOn (walk visit d s) t = some (r, u)) : ∃ f, r = .ok f := by
  induction d generalizing s t u r with
  | zero => cases h
  | succ d ih =>
    rcases runOn_andThen_cases h with ⟨e, hrun, -⟩ | ⟨f, -, -, rfl⟩ | ⟨f, v, r₂, -, -, hrun, rfl⟩
    · obtain ⟨f, hf⟩ := hvisit hrun
      cases hf
    · exact ⟨f, rfl⟩
    · rw [Compute.runOn_read_bind] at hrun
      obtain ⟨g, rfl⟩ := ok_of_inOrder (fun hrun => ih hrun) hrun
      exact ⟨_, rfl⟩

end Routine

namespace Engine

variable {κ σ : Type} {E : Engine κ σ} {s : ScopeId} {q : Queue} {t u v : Tree κ σ} {n : ℕ}

/-- What a digest does before its first round. -/
def opening (E : Engine κ σ) : Routine κ σ Unit := do
  enter .digest
  Compute.change fun t => { t with lastDirty := none }.cancelApply
  E.drain .apply

/-- A digest up to the end of its loop; the answer tells whether it settled, and how many rounds it
was allowed after the first. -/
def loop (E : Engine κ σ) (s : ScopeId) : Routine κ σ (Bool × ℕ) := do
  E.opening
  let ttl ← Compute.read (·.config.digestTtl)
  let settled ← E.passes s ttl
  return (settled, ttl)

/-- After the loop the phase ends, and the tasks for the end of the digest run if it settled. -/
theorem digest_eq_loop (E : Engine κ σ) (s : ScopeId) :
    E.digest s = (do
      let (settled, ttl) ← E.loop s
      leave .digest
      if settled then E.drain .postDigest else throw (.divergence ttl)) := by
  simp only [digest, loop, opening, bind_assoc, pure_bind]

/-- One round: the tasks that wait, and a pass. -/
def Round (E : Engine κ σ) (s : ScopeId) (dirty : Bool) (t u : Tree κ σ) : Prop :=
  ∃ v, runOn (E.drain .async) t = some (.ok (), v) ∧ runOn (E.pass s) v = some (.ok dirty, u)

/-- So many rounds one after another, each of which leaves something to do. -/
inductive Rounds (E : Engine κ σ) (s : ScopeId) : ℕ → Tree κ σ → Tree κ σ → Prop
  | none (t : Tree κ σ) : Rounds E s 0 t t
  | more {dirty n t u v} (hround : E.Round s dirty t u)
      (hunsettled : dirty = true ∨ u.queues.async ≠ []) (hrest : Rounds E s n u v) :
    Rounds E s (n + 1) t v

/-! ## Tasks -/

/-- The errors of tasks stay with the host. -/
lemma ok_of_drainWithin {r : Except Error Unit}
    (h : runOn (E.drainWithin q n) t = some (r, u)) : r = .ok () := by
  induction n generalizing t with
  | zero => cases h
  | succ n ih =>
    cases htask : t.dequeue? q with
    | none =>
      rw [drainWithin, Compute.runOn_bind_of_ok (Compute.runOn_alter?_of_none htask)] at h
      cases h
      rfl
    | some x =>
      rw [drainWithin, Compute.runOn_bind_of_ok (Compute.runOn_alter?_of_some htask)] at h
      rcases runOn_bind_cases h with ⟨e, hrun, -⟩ | ⟨_, v, -, hrest⟩
      · obtain ⟨hr, -⟩ := runOn_contained_cases hrun
        cases hr
      · exact ih hrest

lemma ok_of_visitWatcher {w : WatcherId} {r : Except Error Findings}
    (h : runOn (E.visitWatcher w) t = some (r, u)) : ∃ f, r = .ok f := by
  rcases visitWatcher_cases h with ⟨-, rfl, -⟩ | ⟨-, _, _, -, ⟨_, -, rfl, -⟩ | ⟨-, rfl, -⟩ |
    ⟨_, -, rfl, -⟩⟩ <;> exact ⟨_, rfl⟩

lemma ok_of_visitScope {r : Except Error Findings} (h : runOn (E.visitScope s) t = some (r, u)) :
    ∃ f, r = .ok f := by
  rw [visitScope, Compute.runOn_read_bind] at h
  exact Routine.ok_of_inOrder ok_of_visitWatcher h

lemma ok_of_pass {r : Except Error Bool} (h : runOn (E.pass s) t = some (r, u)) :
    ∃ dirty, r = .ok dirty := by
  rw [pass, Compute.runOn_change_bind] at h
  rcases runOn_bind_cases h with ⟨e, hwalk, -⟩ | ⟨f, v, -, hrest⟩
  · obtain ⟨f, hf⟩ := Routine.ok_of_walk ok_of_visitScope hwalk
    cases hf
  · cases hrest
    exact ⟨f.dirty, rfl⟩

/-- A queue that was drained is empty. -/
lemma tasks_of_drainWithin {r : Except Error Unit}
    (h : runOn (E.drainWithin q n) t = some (r, u)) : u.queues.tasks q = [] := by
  induction n generalizing t with
  | zero => cases h
  | succ n ih =>
    cases htask : t.dequeue? q with
    | none =>
      rw [drainWithin, Compute.runOn_bind_of_ok (Compute.runOn_alter?_of_none htask)] at h
      cases h
      exact (Tree.dequeue?_eq_none_iff _ _).1 htask
    | some x =>
      rw [drainWithin, Compute.runOn_bind_of_ok (Compute.runOn_alter?_of_some htask)] at h
      rcases runOn_bind_cases h with ⟨e, hrun, -⟩ | ⟨_, v, -, hrest⟩
      · obtain ⟨hr, -⟩ := runOn_contained_cases hrun
        cases hr
      · exact ih hrest

/-! ## Rounds -/

/-- A round that does not settle the digest leaves something to do. -/
lemma unsettled_iff {dirty : Bool} : (!dirty && t.queues.async.isEmpty) = false ↔
    dirty = true ∨ t.queues.async ≠ [] := by
  cases dirty <;> simp

/-- What is left to do after the first round of a loop. -/
lemma round_of_passes {r : Except Error Bool} (h : runOn (E.passes s n) t = some (r, u)) :
    ∃ dirty v, E.Round s dirty t v ∧
      (dirty = false ∧ v.queues.async = [] ∧ r = .ok true ∧ u = v ∨
        (dirty = true ∨ v.queues.async ≠ []) ∧ (n = 0 ∧ r = .ok false ∧ u = v ∨
          ∃ m, n = m + 1 ∧ runOn (E.passes s m) v = some (r, u))) := by
  rw [passes.eq_def] at h
  rcases runOn_bind_cases h with ⟨e, hdrain, -⟩ | ⟨_, w, hdrain, h₁⟩
  · cases ok_of_drainWithin hdrain
  rcases runOn_bind_cases h₁ with ⟨e, hpass, -⟩ | ⟨dirty, v, hpass, h₂⟩
  · obtain ⟨dirty, he⟩ := ok_of_pass hpass
    cases he
  refine ⟨dirty, v, ⟨w, hdrain, hpass⟩, ?_⟩
  rw [Compute.runOn_read_bind] at h₂
  cases hsettled : !dirty && v.queues.async.isEmpty with
  | true =>
    rw [hsettled] at h₂
    cases h₂
    simp only [Bool.and_eq_true, Bool.not_eq_true', List.isEmpty_iff] at hsettled
    exact .inl ⟨hsettled.1, hsettled.2, rfl, rfl⟩
  | false =>
    rw [hsettled] at h₂
    refine .inr ⟨unsettled_iff.1 hsettled, ?_⟩
    cases n with
    | zero =>
      cases h₂
      exact .inl ⟨rfl, rfl, rfl⟩
    | succ m => exact .inr ⟨m, rfl, h₂⟩

/-- A loop ends with word whether it settled. -/
lemma ok_of_passes {r : Except Error Bool} (h : runOn (E.passes s n) t = some (r, u)) :
    ∃ settled, r = .ok settled := by
  induction n generalizing t with
  | zero =>
    obtain ⟨dirty, v, -, ⟨-, -, rfl, -⟩ | ⟨-, ⟨-, rfl, -⟩ | ⟨m, hm, -⟩⟩⟩ := round_of_passes h
    · exact ⟨true, rfl⟩
    · exact ⟨false, rfl⟩
    · cases hm
  | succ n ih =>
    obtain ⟨dirty, v, -, ⟨-, -, rfl, -⟩ | ⟨-, ⟨hn, -, -⟩ | ⟨m, hm, hrest⟩⟩⟩ := round_of_passes h
    · exact ⟨true, rfl⟩
    · cases hn
    · cases hm
      exact ih hrest

/-- A loop that settled has gone round until a round found nothing dirty and left no task. -/
theorem rounds_of_settled (h : runOn (E.passes s n) t = some (.ok true, u)) :
    ∃ k v, k ≤ n ∧ E.Rounds s k t v ∧ E.Round s false v u ∧ u.queues.async = [] := by
  induction n generalizing t with
  | zero =>
    obtain ⟨dirty, v, hround, ⟨rfl, hempty, -, rfl⟩ | ⟨-, ⟨-, hr, -⟩ | ⟨m, hm, -⟩⟩⟩ :=
      round_of_passes h
    · exact ⟨0, t, le_rfl, .none t, hround, hempty⟩
    · cases hr
    · cases hm
  | succ n ih =>
    obtain ⟨dirty, v, hround, ⟨rfl, hempty, -, rfl⟩ | ⟨hunsettled, ⟨hn, -, -⟩ | ⟨m, hm, hrest⟩⟩⟩ :=
      round_of_passes h
    · exact ⟨0, t, Nat.zero_le _, .none t, hround, hempty⟩
    · cases hn
    · cases hm
      obtain ⟨k, w, hk, hrounds, hlast⟩ := ih hrest
      exact ⟨k + 1, w, Nat.succ_le_succ hk, .more hround hunsettled hrounds, hlast⟩

/-- A loop that did not settle has gone round as often as it was allowed to. -/
theorem rounds_of_not_settled (h : runOn (E.passes s n) t = some (.ok false, u)) :
    E.Rounds s (n + 1) t u := by
  induction n generalizing t with
  | zero =>
    obtain ⟨dirty, v, hround, ⟨-, -, hr, -⟩ | ⟨hunsettled, ⟨-, -, rfl⟩ | ⟨m, hm, -⟩⟩⟩ :=
      round_of_passes h
    · cases hr
    · exact .more hround hunsettled (.none _)
    · cases hm
  | succ n ih =>
    obtain ⟨dirty, v, hround, ⟨-, -, hr, -⟩ | ⟨hunsettled, ⟨hn, -, -⟩ | ⟨m, hm, hrest⟩⟩⟩ :=
      round_of_passes h
    · cases hr
    · cases hn
    · cases hm
      exact .more hround hunsettled (ih hrest)

/-! ## Beginnings -/

lemma begun_cases (t : Tree κ σ) :
    ∃ applyFlush deferral, t.begun = { { t with phase := some .digest, lastDirty := none }.note
      (.entered .digest) with applyFlush, deferral } := by
  obtain ⟨deferral, applyFlush, h⟩ := Tree.cancelApply_eq
    { { t with phase := some .digest }.note (.entered .digest) with lastDirty := none }
  exact ⟨applyFlush, deferral, h⟩

@[simp] lemma phase_begun (t : Tree κ σ) : t.begun.phase = some .digest := by
  obtain ⟨_, _, h⟩ := begun_cases t
  rw [h]
  rfl

@[simp] lemma lastDirty_begun (t : Tree κ σ) : t.begun.lastDirty = none := by
  obtain ⟨_, _, h⟩ := begun_cases t
  rw [h]
  rfl

@[simp] lemma frame_begun (t : Tree κ σ) : t.begun.frame = t.frame := by
  obtain ⟨_, _, h⟩ := begun_cases t
  rw [h]
  rfl

@[simp] lemma config_begun (t : Tree κ σ) : t.begun.config = t.config := by
  obtain ⟨_, _, h⟩ := begun_cases t
  rw [h]
  rfl

@[simp] lemma journal_begun (t : Tree κ σ) : t.begun.journal = .entered .digest :: t.journal := by
  obtain ⟨_, _, h⟩ := begun_cases t
  rw [h]
  rfl

@[simp] lemma queues_begun (t : Tree κ σ) : t.begun.queues = t.queues := by
  obtain ⟨_, _, h⟩ := begun_cases t
  rw [h]
  rfl

/-! ## Digests and applies that are accepted -/

lemma runOn_enter_of_idle (hidle : t.phase = none) (phase : Phase) :
    runOn (enter phase) t = some (.ok (), t.entering phase) := by
  rw [enter, Compute.runOn_read_bind, Tree.enter_of_idle hidle]
  rfl

lemma runOn_opening (hidle : t.phase = none) (E : Engine κ σ) :
    runOn E.opening t = runOn (E.drain .apply) t.begun := by
  rw [opening, Compute.runOn_bind_of_ok (runOn_enter_of_idle hidle .digest),
    Compute.runOn_change_bind]
  rfl

/-- A digest begins in a tree that was idle, and first runs the tasks that wait for an apply. -/
lemma drain_of_opening (h : runOn E.opening t = some (.ok (), u)) :
    t.phase = none ∧ runOn (E.drain .apply) t.begun = some (.ok (), u) := by
  cases hphase : t.phase with
  | some active =>
    rw [opening, Compute.runOn_bind_of_error (runOn_enter_of_busy hphase .digest)] at h
    cases h
  | none => exact ⟨rfl, (runOn_opening hphase E).symm.trans h⟩

/-- The loop of a digest that drains and passes to the end. -/
lemma runOn_loop {settled : Bool} {v w : Tree κ σ} (hidle : t.phase = none)
    (hdrain : runOn (E.drain .apply) t.begun = some (.ok (), v))
    (hpasses : runOn (E.passes s v.config.digestTtl) v = some (.ok settled, w)) :
    runOn (E.loop s) t = some (.ok (settled, v.config.digestTtl), w) := by
  rw [loop, Compute.runOn_bind_of_ok ((runOn_opening hidle E).trans hdrain),
    Compute.runOn_read_bind, Compute.runOn_bind_of_ok hpasses]
  rfl

/-- The stages of a digest that is accepted: it drains the apply queue and goes round, and at the
end of its phase it drains the queue for its end if it settled, and fails if it did not. -/
theorem runOn_digest_cases {r : Except Error Unit} (hidle : t.phase = none)
    (h : runOn (E.digest s) t = some (r, u)) : ∃ settled v w,
      runOn (E.drain .apply) t.begun = some (.ok (), v) ∧
      runOn (E.passes s v.config.digestTtl) v = some (.ok settled, w) ∧
      (settled = true ∧ r = .ok () ∧
          runOn (E.drain .postDigest) (w.leave .digest) = some (.ok (), u) ∨
        settled = false ∧ r = .error (.divergence v.config.digestTtl) ∧ u = w.leave .digest) := by
  rw [digest, Compute.runOn_bind_of_ok (runOn_enter_of_idle hidle .digest),
    Compute.runOn_change_bind] at h
  rcases runOn_bind_cases h with ⟨e, hdrain, -⟩ | ⟨_, v, hdrain, h₁⟩
  · cases ok_of_drainWithin hdrain
  rw [Compute.runOn_read_bind] at h₁
  rcases runOn_bind_cases h₁ with ⟨e, hpasses, -⟩ | ⟨settled, w, hpasses, h₂⟩
  · obtain ⟨settled, he⟩ := ok_of_passes hpasses
    cases he
  refine ⟨settled, v, w, hdrain, hpasses, ?_⟩
  rw [leave, Compute.runOn_change_bind] at h₂
  cases settled with
  | true =>
    rw [if_pos rfl] at h₂
    obtain rfl := ok_of_drainWithin h₂
    exact .inl ⟨rfl, rfl, h₂⟩
  | false =>
    cases h₂
    exact .inr ⟨rfl, rfl, rfl⟩

/-- The stages of an apply that is accepted: its body runs in the apply phase, and the tree is
digested after it.  The error of the digest takes precedence over what the body ended with. -/
theorem runOn_apply_cases {body : Routine κ σ Value} {r : Except Error Value}
    (hidle : t.phase = none) (h : runOn (E.apply body) t = some (r, u)) : ∃ result v digested,
      runOn body (t.entering .apply) = some (result, v) ∧
      runOn (E.digest rootId) (v.leave .apply) = some (digested, u) ∧
      r = digested.bind fun _ => result := by
  rw [apply, Compute.runOn_bind_of_ok (runOn_enter_of_idle hidle .apply)] at h
  obtain ⟨result, v, hbody, h₁⟩ := Compute.runOn_attempt_bind_cases h
  rw [leave, Compute.runOn_change_bind] at h₁
  rcases runOn_bind_cases h₁ with ⟨e, hdigest, rfl⟩ | ⟨_, w, hdigest, h₂⟩
  · exact ⟨result, v, .error e, hbody, hdigest, rfl⟩
  · cases h₂
    exact ⟨_, v, .ok (), hbody, hdigest, rfl⟩

/-! ## What rounds lead to -/

section Governed

variable {phase : Phase} (hE : E.Governed)

include hE

lemma inPhase_drain (q : Queue) : Leads (InPhase Interlude) (E.drain q) :=
  leads_drain Tree.drains_interlude.inPhase (hE.inPhase Tree.watches_interlude.toDefers) q

lemma inPhase_pass (s : ScopeId) : Leads (InPhase Grows) (E.pass s) :=
  leads_pass Tree.passes_grows.inPhase (hE.inPhase Tree.defers_grows) s

lemma Round.inPhase {dirty : Bool} (h : E.Round s dirty t u) : InPhase Grows t u := by
  obtain ⟨v, hdrain, hpass⟩ := h
  intro phase ht
  obtain ⟨hv, hinterlude⟩ := inPhase_drain hE .async hdrain phase ht
  obtain ⟨hu, hgrows⟩ := inPhase_pass hE s hpass phase hv
  exact ⟨hu, trans_of Grows hinterlude.toGrows hgrows⟩

lemma Rounds.inPhase (h : E.Rounds s n t u) : InPhase Grows t u := by
  induction h with
  | none t => exact refl_of (InPhase Grows) t
  | more hround _ _ ih => exact trans_of (InPhase Grows) (hround.inPhase hE) ih

/-- A digest opens in a tree that was idle, and then runs tasks. -/
lemma opening_cases (h : runOn E.opening t = some (.ok (), u)) :
    t.phase = none ∧ InPhase Interlude t.begun u ∧ u.queues.apply = [] := by
  obtain ⟨hidle, hdrain⟩ := drain_of_opening h
  exact ⟨hidle, inPhase_drain hE .apply hdrain, tasks_of_drainWithin hdrain⟩

end Governed

end Engine

end DataBinding
