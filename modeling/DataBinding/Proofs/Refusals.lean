import DataBinding.Proofs.Rounds

/-!
# Deferred jobs that are refused

A deferred job may come while a phase is active, since procedures of the host can ask for the
deferred jobs to be run.  A deferred apply is then put off, and a deferred digest is not needed
unless tasks wait for a pass.  If they do, it asks for a digest all the same, which is refused, and
the refusal is handed to the host: these are all the refusals that deferred jobs hand to it
(`Engine.job_refused_iff`).

So a host may be told of a refusal though it has done nothing but queue a task and run the deferred
jobs (`eager_is_refused`).
-/

namespace DataBinding

open Compute (runOn)

variable {κ σ : Type}

namespace Engine

variable {E : Engine κ σ} {t u : Tree κ σ} {phase : Phase}

/-! ## What a job hands to the host -/

/-- Runs a deferred job, up to the error that it hands to the host. -/
def jobError (E : Engine κ σ) : JobKind → Routine κ σ (Option Error)
  | .digest => do
    if ← Compute.read (·.queues.async.isEmpty) then return none
    else
      match ← Compute.attempt (E.digest rootId) with
      | .ok () => return none
      | .error e => return some e
  | .apply => do
    let pending ← Compute.alter fun t : Tree κ σ =>
      (t.applyFlush.isSome, { t with applyFlush := none })
    if pending then
      match ← Compute.attempt E.applyQueued with
      | .ok _ => return none
      | .error (.busy _) => do
        Compute.change (·.enqueue .postDigest rootId .rearm)
        return none
      | .error e => return some e
    else return none

/-- Hands an error to the host, if there is one. -/
def handOver (E : Engine κ σ) : Option Error → Routine κ σ Unit
  | some e => E.reportError e
  | none => pure ()

/-- A deferred job runs, and then hands its error to the host. -/
theorem runJob_eq (E : Engine κ σ) (kind : JobKind) :
    E.runJob kind = E.jobError kind >>= E.handOver := by
  cases kind with
  | digest =>
    simp only [runJob, runDigest, contained, jobError, bind_assoc]
    congr 1
    funext idle
    cases idle with
    | true => simp [handOver]
    | false =>
      simp only [Bool.false_eq_true, if_false, bind_assoc]
      congr 1
      funext result
      cases result <;> simp [handOver]
  | apply =>
    simp only [runJob, runApply, jobError, bind_assoc]
    congr 1
    funext pending
    cases pending with
    | false => simp [handOver]
    | true =>
      simp only [if_true, bind_assoc]
      congr 1
      funext result
      split <;> simp [handOver]

/-! ## Digests and applies that are accepted are not refused -/

lemma ne_busy_of_digest {s : ScopeId} {r : Except Error Unit} (hidle : t.phase = none)
    (h : runOn (E.digest s) t = some (r, u)) : r ≠ .error (.busy phase) := by
  obtain ⟨_, _, _, -, -, ⟨-, rfl, -⟩ | ⟨-, rfl, -⟩⟩ := runOn_digest_cases hidle h
  · exact nofun
  · exact nofun

/-- A deferred digest is refused if tasks wait for a pass and a phase is active. -/
lemma runOn_jobError_of_busy (hbusy : t.phase = some phase) (htasks : t.queues.async ≠ []) :
    runOn (E.jobError .digest) t = some (.ok (some (.busy phase)), t) := by
  rw [jobError, Compute.runOn_read_bind, List.isEmpty_eq_false_iff.2 htasks,
    if_neg Bool.false_ne_true, Compute.runOn_attempt_bind_of_run (runOn_digest_of_busy hbusy)]
  rfl

/-- The deferred jobs that hand a refusal to the host: each is a digest, it comes while a phase is
active and tasks wait for a pass, and it does nothing. -/
theorem job_refused_iff (E : Engine κ σ) (kind : JobKind) (t u : Tree κ σ) (phase : Phase) :
    E.runJob kind = E.jobError kind >>= E.handOver ∧
    (runOn (E.jobError kind) t = some (.ok (some (.busy phase)), u) ↔
      kind = .digest ∧ t.phase = some phase ∧ t.queues.async ≠ [] ∧ u = t) := by
  refine ⟨runJob_eq E kind, fun h => ?_, ?_⟩
  · cases kind with
    | digest =>
      rw [jobError, Compute.runOn_read_bind] at h
      split at h
      · cases h
      · next hempty =>
        have htasks : t.queues.async ≠ [] := fun hnil => hempty (List.isEmpty_iff.2 hnil)
        obtain ⟨result, v, hdigest, hrest⟩ := Compute.runOn_attempt_bind_cases h
        cases result with
        | ok => cases hrest
        | error e =>
          cases hrest
          cases hphase : t.phase with
          | none => exact absurd rfl (ne_busy_of_digest hphase hdigest)
          | some active =>
            rw [runOn_digest_of_busy hphase] at hdigest
            cases hdigest
            exact ⟨rfl, rfl, htasks, rfl⟩
    | apply =>
      rw [jobError, Compute.runOn_alter_bind] at h
      split at h
      · obtain ⟨result, v, -, hrest⟩ := Compute.runOn_attempt_bind_cases h
        split at hrest
        · cases hrest
        · cases hrest
        · next hne =>
          cases hrest
          exact absurd rfl (hne phase)
      · cases h
  · rintro ⟨rfl, hbusy, htasks, rfl⟩
    exact runOn_jobError_of_busy hbusy htasks

end Engine

/-! ## A host that runs deferred jobs in an apply -/

/-- The procedures of the host. -/
inductive Eager where
  /-- Runs the deferred jobs. -/
  | flush
  /-- Does nothing. -/
  | work

/-- A host that keeps the errors that are handed to it. -/
def eager : Host Eager (List Error) where
  library := ⟨fun _ _ _ => .endless, fun _ _ => .endless⟩
  report := fun e errors => e :: errors
  procedure
    | .flush, _ => do
      discard <| Program.request .flush
      return .undefined
    | .work, _ => return .undefined

/-- Queues a task while the tree is idle, and runs the deferred jobs in the body of an apply. -/
def eagerSetup : Program Eager (List Error) Unit := do
  Program.request (.evalAsync rootId .work)
  discard <| Program.request (.apply rootId .flush)

/-- The deferred digest hands its refusal to the host, although the tree is about to be digested. -/
theorem eager_is_refused : ∃ u, eager.run 9 eagerSetup
      (.plant ⟨.empty, []⟩ ⟨.empty, .empty⟩ {} false) = some (.ok (), u) ∧
    u.store.host = [.busy .apply] ∧
    u.journal.reverse = [.queued .async 0, .entered .apply, .called .flush (.body rootId),
      .ran .digest, .reported (.busy .apply), .left .apply, .entered .digest, .started .async 0,
      .called .work (.task rootId), .pass rootId, .left .digest] := by
  generalize hx : eager.run 9 eagerSetup _ = x
  cbv at hx
  subst hx
  exact ⟨_, rfl, rfl, rfl⟩

end DataBinding
