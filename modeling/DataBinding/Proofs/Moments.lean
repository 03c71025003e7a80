import DataBinding.Proofs.Moves

/-!
# The moments of a run

A digest that is accepted is in the digest phase from its beginning to the end of its loop, and runs
the tasks for its end after that (`Engine.DigestRun`).  An apply that is accepted is in the apply
phase while its body runs, and digests after that (`Engine.ApplyRun`).  These runs, and those of the
tasks that are taken out of queues, are the calls of a host (`Host.Begins`).

Every run is a path whose calls are calls of the host, whatever its procedures do
(`Host.spans_of_run`), and so are the loop of every digest that is accepted, what the digest does
after it, the body of every apply that is accepted and what follows it, with the call below them
(`Host.exists_digestRun`, `Host.exists_applyRun`).  A path has a moment for each call of a
procedure, so that in all moments in which the host can act the phase is that of the one call that
is in a phase (`Host.phases_never_overlap`).
-/

namespace DataBinding

open Compute (Leads runOn)
open Moment (Move Path)

variable {κ σ α : Type}

/-! ## Runs of digests and applies -/

namespace Engine

/-- A digest that was accepted at `t`: its loop ended at `w` and its phase with it, and it returned
at `u`, after the tasks for its end if it settled. -/
structure DigestRun (E : Engine κ σ) (s : ScopeId) (t w u : Tree κ σ) : Prop where
  idle : t.phase = none
  run : ∃ r, runOn (E.digest s) t = some (r, u)
  stages : ∃ settled v, runOn (E.drain .apply) t.begun = some (.ok (), v) ∧
    runOn (E.passes s v.config.digestTtl) v = some (.ok settled, w) ∧
    (settled = true ∧ runOn (E.drain .postDigest) (w.leave .digest) = some (.ok (), u) ∨
      settled = false ∧ u = w.leave .digest)

/-- An apply that was accepted at `t`: its body ended at `v` and its phase with it, and it returned
at `u`, where the digest after it ended. -/
structure ApplyRun (E : Engine κ σ) (body : Routine κ σ Value) (t v u : Tree κ σ) : Prop where
  idle : t.phase = none
  run : ∃ r, runOn (E.apply body) t = some (r, u)
  stages : ∃ result digested, runOn body (t.entering .apply) = some (result, v) ∧
    runOn (E.digest rootId) (v.leave .apply) = some (digested, u)

variable {E : Engine κ σ} {t u : Tree κ σ}

lemma exists_digestRun {s : ScopeId} {r : Except Error Unit} (hidle : t.phase = none)
    (h : runOn (E.digest s) t = some (r, u)) : ∃ w, E.DigestRun s t w u := by
  obtain ⟨settled, v, w, hdrain, hpasses, hend⟩ := runOn_digest_cases hidle h
  refine ⟨w, hidle, ⟨r, h⟩, settled, v, hdrain, hpasses, ?_⟩
  rcases hend with ⟨hsettled, -, hpost⟩ | ⟨hsettled, -, hu⟩
  · exact .inl ⟨hsettled, hpost⟩
  · exact .inr ⟨hsettled, hu⟩

lemma exists_applyRun {body : Routine κ σ Value} {r : Except Error Value} (hidle : t.phase = none)
    (h : runOn (E.apply body) t = some (r, u)) : ∃ v, E.ApplyRun body t v u := by
  obtain ⟨result, v, digested, hbody, hdigest, -⟩ := runOn_apply_cases hidle h
  exact ⟨v, hidle, ⟨r, h⟩, result, digested, hbody, hdigest⟩

end Engine

/-! ## Runs are paths -/

namespace Host

/-- The calls of a host, and where each may begin: a digest or an apply where it is accepted, and a
task where it was just taken out of its queue.  Each comes to the trees that its run comes to. -/
inductive Begins (H : Host κ σ) : Call κ σ → Tree κ σ → Prop
  | digest {limit : ℕ} {s : ScopeId} {t w u : Tree κ σ}
    (hrun : (H.engine limit).DigestRun s t w u) : Begins H (.digesting s w u) t
  | apply {limit : ℕ} {body : Routine κ σ Value} {t v u : Tree κ σ}
    (hbody : (H.engine limit).IsBody body) (hrun : (H.engine limit).ApplyRun body t v u) :
    Begins H (.applying v u) t
  | task {limit : ℕ} {q : Queue} {task : Task κ} {t v : Tree κ σ}
    (hrun : runOn ((H.engine limit).contained ((H.engine limit).perform task.scope task.work)) t =
      some (.ok (), v)) : Begins H (.working q task v) t

/-- From the one tree to the other there is a path of the host under the given calls, and it has a
moment for each step that was noted on the way. -/
def Spans (H : Host κ σ) (calls : List (Call κ σ)) (t u : Tree κ σ) : Prop :=
  ∃ ds, Path H.Begins ⟨calls, t⟩ ds ⟨calls, u⟩ ∧
    ∀ step later earlier, u.journal = later ++ step :: (earlier ++ t.journal) →
      ∃ inner v ds₁ ds₂, ds₁ ++ ds₂ = ds ∧ Path H.Begins ⟨calls, t⟩ ds₁ ⟨inner ++ calls, v⟩ ∧
        Path H.Begins ⟨inner ++ calls, v⟩ ds₂ ⟨calls, u⟩ ∧
        v.journal = step :: (earlier ++ t.journal)

/-- From the one tree to the other there is a path of the host. -/
def Passage (H : Host κ σ) (t u : Tree κ σ) : Prop := ∃ ds, Path H.Begins ⟨[], t⟩ ds ⟨[], u⟩

variable {H : Host κ σ} {limit : ℕ} {t u : Tree κ σ}

instance : IsPreorder (Tree κ σ) H.Passage where
  refl t := ⟨[], .refl ⟨[], t⟩⟩
  trans _ _ _ := fun ⟨ds₁, hpath₁⟩ ⟨ds₂, hpath₂⟩ => ⟨ds₁ ++ ds₂, hpath₁.trans hpath₂⟩

namespace Passage

/-- A path is one under whatever calls. -/
lemma path (h : H.Passage t u) (calls : List (Call κ σ)) :
    ∃ ds, Path H.Begins ⟨calls, t⟩ ds ⟨calls, u⟩ := by
  obtain ⟨ds, hpath⟩ := h
  exact ⟨ds, hpath.atop calls⟩

lemma spans (h : H.Passage t u) (calls : List (Call κ σ)) : H.Spans calls t u := by
  obtain ⟨ds, hpath⟩ := h
  refine ⟨ds, hpath.atop calls, fun step later earlier hnoted => ?_⟩
  obtain ⟨n, ds₁, ds₂, hds, hto, hfrom, hn⟩ := hpath.exists_of_noted hnoted
  exact ⟨n.calls, n.tree, ds₁, ds₂, hds, hto.atop calls, hfrom.atop calls, hn⟩

/-- The phase is at the end of a passage what it was at its beginning. -/
lemma phase (h : H.Passage t u) : u.phase = t.phase := by
  -- the calls below are the same at both ends, and they can be chosen to agree with the tree
  have key : ∀ calls : List (Call κ σ), Call.phases calls = t.phase.toList →
      u.phase = t.phase := by
    intro calls hcalls
    obtain ⟨ds, hpath⟩ := h.path calls
    have hu : Call.phases calls = u.phase.toList := hpath.agrees hcalls
    refine Option.ext fun phase => ?_
    rw [← Option.mem_toList, ← Option.mem_toList, ← hu, hcalls]
  cases hphase : t.phase with
  | none => exact hphase ▸ key [] (hphase ▸ rfl)
  | some phase =>
    cases phase with
    | digest => exact hphase ▸ key [.digesting rootId t t] (hphase ▸ rfl)
    | apply => exact hphase ▸ key [.applying t t] (hphase ▸ rfl)

end Passage

lemma passage_of_change (h : t.Change u) : H.Passage t u := ⟨_, (Move.change h).path⟩

lemma passage_of_act (h : t.Act u) : H.Passage t u := by
  rcases h.queues with hqueues | ⟨q, s, work, hqueues⟩
  · exact passage_of_change (.act h hqueues)
  · exact ⟨_, (Move.queue h hqueues).path⟩

lemma passes_passage : Passes H.Passage where
  toAdmits := .of_changes passage_of_act (fun t s => passage_of_change (.beginDestroy t s))
    fun t s => passage_of_change (.tearDown t s)
  tick h := passage_of_change (.tick h)
  setKind _ _ := passage_of_change (.setKind _ _ _)
  record h := passage_of_change (.record h)
  checked := passage_of_change (.checked _ _)
  dirty := passage_of_change (.dirty _ _)
  pass := passage_of_change (.pass _ _)

lemma admits_passage : Admits H.Passage := passes_passage.toAdmits

section Calls

variable (hcall : ∀ procedure how, Leads H.Passage ((H.engine limit).invoke procedure how))

include hcall

/-- Each task that is drained is a call while it is at work. -/
lemma passage_drain (q : Queue) : Leads H.Passage ((H.engine limit).drain q) := by
  refine Engine.leads_drain_of_task fun {t task u r v} hnext hrun => ?_
  have hperform : H.Passage u v :=
    Engine.leads_contained admits_passage.grants
      (Engine.leads_perform admits_passage.allows hcall _ _) hrun
  obtain ⟨rfl, -⟩ := Engine.runOn_contained_cases hrun
  obtain ⟨ds, hpath⟩ := hperform.path [.working q task v]
  exact ⟨_, ((Move.start hnext (.task hrun)).path.trans hpath).more .finish⟩

/-- There is a path through the loop of a digest, and one through what it does after it. -/
lemma passage_digestRun {s : ScopeId} {w : Tree κ σ} (h : (H.engine limit).DigestRun s t w u) :
    H.Passage t.begun w ∧ H.Passage (w.leave .digest) u := by
  obtain ⟨settled, v, hdrain, hpasses, hend⟩ := h.stages
  have hopened : H.Passage t.begun v := passage_drain hcall .apply hdrain
  have hpassed : H.Passage v w :=
    Engine.leads_passes (passage_drain hcall .async) (Engine.leads_pass passes_passage hcall s) _
      hpasses
  refine ⟨trans_of H.Passage hopened hpassed, ?_⟩
  rcases hend with ⟨-, hpost⟩ | ⟨-, rfl⟩
  · exact passage_drain hcall .postDigest hpost
  · exact refl_of H.Passage _

/-- A digest that is accepted is a call of its own while it runs. -/
lemma passage_digest (s : ScopeId) : Leads H.Passage ((H.engine limit).digest s) := by
  intro t r u h
  cases hphase : t.phase with
  | some active =>
    rw [Engine.runOn_digest_of_busy hphase] at h
    cases h
    exact refl_of H.Passage t
  | none =>
    obtain ⟨w, hrun⟩ := Engine.exists_digestRun hphase h
    obtain ⟨hloop, hafter⟩ := passage_digestRun hcall hrun
    obtain ⟨ds₁, hpath₁⟩ := hloop.path [.digesting s w u]
    obtain ⟨ds₂, hpath₂⟩ := hafter.path [.digested s u]
    have hbegun := (Move.beginDigest hphase (.digest hrun)).path.trans hpath₁
    exact ⟨_, ((hbegun.more .endLoop).trans hpath₂).more .endDigest⟩

lemma passage_body {body : Routine κ σ Value} (hbody : (H.engine limit).IsBody body) :
    Leads H.Passage body := by
  cases hbody with
  | procedure procedure s =>
    exact Engine.leads_call admits_passage.allows.concedes hcall procedure (.body s)
  | source s source => exact Engine.leads_evaluateSource admits_passage.grants s source none
  | tasks => exact (passage_drain hcall .apply).bind fun _ => .pure _

/-- There is a path through the body of an apply, and one through what it does after it. -/
lemma passage_applyRun {body : Routine κ σ Value} {v : Tree κ σ}
    (hbody : (H.engine limit).IsBody body) (h : (H.engine limit).ApplyRun body t v u) :
    H.Passage (t.entering .apply) v ∧ H.Passage (v.leave .apply) u := by
  obtain ⟨result, digested, hrun, hdigest⟩ := h.stages
  exact ⟨passage_body hcall hbody hrun, passage_digest hcall rootId hdigest⟩

/-- An apply that is accepted is a call of its own while it runs. -/
lemma passage_apply {body : Routine κ σ Value} (hbody : (H.engine limit).IsBody body) :
    Leads H.Passage ((H.engine limit).apply body) := by
  intro t r u h
  cases hphase : t.phase with
  | some active =>
    rw [Engine.runOn_apply_of_busy hphase] at h
    cases h
    exact refl_of H.Passage t
  | none =>
    obtain ⟨v, hrun⟩ := Engine.exists_applyRun hphase h
    obtain ⟨hinside, hafter⟩ := passage_applyRun hcall hbody hrun
    obtain ⟨ds₁, hpath₁⟩ := hinside.path [.applying v u]
    obtain ⟨ds₂, hpath₂⟩ := hafter.path [.applied u]
    have hbegun := (Move.beginApply hphase (.apply hbody hrun)).path.trans hpath₁
    exact ⟨_, ((hbegun.more .endBody).trans hpath₂).more .endApply⟩

lemma engine_tame_passage : (H.engine limit).Tame H.Passage where
  invoke := hcall
  digest := passage_digest hcall
  apply hbody _ := passage_apply hcall hbody
  flush := Engine.leads_flush admits_passage.grants passes_passage.tick
    (passage_digest hcall rootId) (passage_apply hcall .tasks)
  advance := Engine.leads_advance admits_passage.grants passes_passage.tick
    (passage_digest hcall rootId) (passage_apply hcall .tasks)

end Calls

variable (H) in
lemma tame_passage (limit : ℕ) : (H.engine limit).Tame H.Passage :=
  H.tame admits_passage.allows (fun _ hcall => engine_tame_passage hcall) limit

/-- Every run is a path, and has a moment for each step that it notes. -/
theorem spans_of_run {p : Program κ σ α} {r : Except Error α} (h : H.run limit p t = some (r, u))
    (calls : List (Call κ σ)) : H.Spans calls t u :=
  Passage.spans (Engine.leads_execute admits_passage.allows (H.tame_passage limit) p h) calls

/-- A digest that is accepted is in its loop while the loop lasts, and after its loop while it runs
the tasks for its end. -/
theorem exists_digestRun {s : ScopeId} {r : Except Error Unit} (hidle : t.phase = none)
    (h : runOn ((H.engine limit).digest s) t = some (r, u)) :
    ∃ w, (H.engine limit).DigestRun s t w u ∧ ∀ calls,
      H.Spans (.digesting s w u :: calls) t.begun w ∧
      H.Spans (.digested s u :: calls) (w.leave .digest) u := by
  obtain ⟨w, hrun⟩ := Engine.exists_digestRun hidle h
  obtain ⟨hloop, hafter⟩ := passage_digestRun (H.tame_passage limit).invoke hrun
  exact ⟨w, hrun, fun calls => ⟨hloop.spans _, hafter.spans _⟩⟩

/-- An apply that is accepted is in its body while the body lasts, and after its body while it
digests. -/
theorem exists_applyRun {body : Routine κ σ Value} {r : Except Error Value}
    (hbody : (H.engine limit).IsBody body) (hidle : t.phase = none)
    (h : runOn ((H.engine limit).apply body) t = some (r, u)) :
    ∃ v, (H.engine limit).ApplyRun body t v u ∧ ∀ calls,
      H.Spans (.applying v u :: calls) (t.entering .apply) v ∧
      H.Spans (.applied u :: calls) (v.leave .apply) u := by
  obtain ⟨v, hrun⟩ := Engine.exists_applyRun hidle h
  obtain ⟨hinside, hafter⟩ := passage_applyRun (H.tame_passage limit).invoke hbody hrun
  exact ⟨v, hrun, fun calls => ⟨hinside.spans _, hafter.spans _⟩⟩

/-! ## Phases -/

/-- Every run is a path of calls of the host, with a moment for each step that it notes, and so for
each call of a procedure.

In every moment of every path the tree is in the digest phase just while a digest is in its loop,
and in the apply phase just while an apply is in its body, and there is one such call at most.  Each
has begun on the way where it may.  In the journal phases have begun and ended in turn.

A digest that is accepted is in its loop on the way from its beginning, after the phase was entered,
to the end of its passes, and after its loop while it runs the tasks for its end.  An apply that is
accepted is in its body while this runs, and after it while it digests.  While there is a phase, a
digest or an apply that is asked for fails with it and leaves the tree as it is, whatever the body
of the apply is.

A run without end is as good as one with an end up to any of its moments: it goes like the run of
the host whose procedures are done from there on. -/
theorem phases_never_overlap (H : Host κ σ) (store : Store σ) (compiler : Compiler)
    (config : Config) (timed : Bool) :
    (∀ {α : Type} (limit : ℕ) (p : Program κ σ α) (r : Except Error α) (u : Tree κ σ),
      H.run limit p (.plant store compiler config timed) = some (r, u) →
      H.Spans [] (.plant store compiler config timed) u) ∧
    (∀ (begins : Call κ σ → Tree κ σ → Prop) (ds : List (Dealing κ)) (m : Moment κ σ),
      Path begins ⟨[], .plant store compiler config timed⟩ ds m →
      (m.tree.phase = some .digest ↔ ∃ s w u, .digesting s w u ∈ m.calls) ∧
      (m.tree.phase = some .apply ↔ ∃ v u, .applying v u ∈ m.calls) ∧
      (Call.phases m.calls).length ≤ 1 ∧ InTurn m.tree.phase m.tree.phaseSteps ∧
      ∀ call ∈ m.calls, call.phase? ≠ none → ∃ calls t u ds₁ ds₂, ds₁ ++ ds₂ = ds ∧
        Path begins ⟨[], .plant store compiler config timed⟩ ds₁ ⟨calls, t⟩ ∧ t.phase = none ∧
        begins call t ∧ Move begins ⟨calls, t⟩ [] ⟨call :: calls, u⟩ ∧
        Path begins ⟨call :: calls, u⟩ ds₂ m) ∧
    (∀ (limit : ℕ) (s : ScopeId) (t : Tree κ σ) (r : Except Error Unit) (u : Tree κ σ),
      t.phase = none → runOn ((H.engine limit).digest s) t = some (r, u) →
      ∃ w, (H.engine limit).DigestRun s t w u ∧ ∀ calls,
        H.Spans (.digesting s w u :: calls) t.begun w ∧
        H.Spans (.digested s u :: calls) (w.leave .digest) u) ∧
    (∀ (limit : ℕ) (body : Routine κ σ Value) (t : Tree κ σ) (r : Except Error Value)
      (u : Tree κ σ), (H.engine limit).IsBody body → t.phase = none →
      runOn ((H.engine limit).apply body) t = some (r, u) →
      ∃ v, (H.engine limit).ApplyRun body t v u ∧ ∀ calls,
        H.Spans (.applying v u :: calls) (t.entering .apply) v ∧
        H.Spans (.applied u :: calls) (v.leave .apply) u) ∧
    ∀ (limit : ℕ) (t : Tree κ σ) (active : Phase), t.phase = some active →
      (∀ s, runOn ((H.engine limit).digest s) t = some (.error (.busy active), t)) ∧
      ∀ body, runOn ((H.engine limit).apply body) t = some (.error (.busy active), t) := by
  refine ⟨fun limit p r u h => spans_of_run h [], fun begins ds m hpath => ?_,
    fun limit s t r u hidle h => exists_digestRun hidle h,
    fun limit body t r u hbody hidle h => exists_applyRun hbody hidle h,
    fun limit t active hbusy =>
      ⟨fun s => Engine.runOn_digest_of_busy hbusy, Engine.runOn_apply_of_busy hbusy⟩⟩
  have hm : m.Agrees := hpath.agrees rfl
  refine ⟨hm.phase_eq_iff.trans ⟨?_, ?_⟩, hm.phase_eq_iff.trans ⟨?_, ?_⟩, ?_,
    hpath.inTurn rfl .none, fun call hcall hphase =>
      (hpath.exists_of_mem hcall hphase).resolve_left List.not_mem_nil⟩
  · rintro ⟨call, hmem, hphase⟩
    cases call with
    | digesting s w u => exact ⟨s, w, u, hmem⟩
    | _ => cases hphase
  · rintro ⟨s, w, u, hmem⟩
    exact ⟨_, hmem, rfl⟩
  · rintro ⟨call, hmem, hphase⟩
    cases call with
    | applying v u => exact ⟨v, u, hmem⟩
    | _ => cases hphase
  · rintro ⟨v, u, hmem⟩
    exact ⟨_, hmem, rfl⟩
  · rw [hm]
    cases m.tree.phase <;> simp

end Host

/-! ## A host that digests inside of digests -/

/-- The procedure of a host that does one thing. -/
inductive Nester where
  | nest

/-- A host whose procedure asks for a digest, wherever it is called. -/
def nester : Host Nester Unit where
  library := ⟨fun _ _ _ => .endless, fun _ _ => .endless⟩
  report := fun _ host => host
  procedure _ _ := do
    Program.request (.digest rootId)
    return .undefined

/-- Asks for a digest in the loop of a digest and after it. -/
def nesterSetup : Program Nester Unit Unit := do
  Program.request (.evalAsync rootId .nest)
  Program.request (.postDigest rootId .nest)
  Program.request (.digest rootId)

/-- The digest inside of the loop is refused, and the one after it is accepted. -/
lemma nester_run : ∃ u, nester.run 9 nesterSetup
      (.plant ⟨.empty, ()⟩ ⟨.empty, .empty⟩ {} false) = some (.ok (), u) ∧
    u.journal.reverse = [.queued .async 0, .queued .postDigest 1, .entered .digest,
      .started .async 0, .called .nest (.task rootId), .reported (.busy .digest), .pass rootId,
      .left .digest, .started .postDigest 1, .called .nest (.task rootId), .entered .digest,
      .pass rootId, .left .digest] := by
  generalize hx : nester.run 9 nesterSetup _ = x
  cbv at hx
  subst hx
  exact ⟨_, rfl, rfl⟩

/-- In the run of that host the procedure is called while a digest is in its loop, where another
digest and an apply are refused, and it is called again while no call is in a phase. -/
theorem nester_moments : ∃ u, nester.run 9 nesterSetup
      (.plant ⟨.empty, ()⟩ ⟨.empty, .empty⟩ {} false) = some (.ok (), u) ∧
    (∃ (m : Moment Nester Unit) (ds ds' : List (Dealing Nester)),
      Path nester.Begins ⟨[], .plant ⟨.empty, ()⟩ ⟨.empty, .empty⟩ {} false⟩ ds m ∧
      Path nester.Begins m ds' ⟨[], u⟩ ∧
      m.tree.journal.head? = some (.called .nest (.task rootId)) ∧
      (∃ s w v, .digesting s w v ∈ m.calls) ∧
      runOn ((nester.engine 9).digest rootId) m.tree = some (.error (.busy .digest), m.tree) ∧
      runOn ((nester.engine 9).apply .endless) m.tree = some (.error (.busy .digest), m.tree)) ∧
    ∃ (m : Moment Nester Unit) (ds ds' : List (Dealing Nester)),
      Path nester.Begins ⟨[], .plant ⟨.empty, ()⟩ ⟨.empty, .empty⟩ {} false⟩ ds m ∧
      Path nester.Begins m ds' ⟨[], u⟩ ∧
      m.tree.journal.head? = some (.called .nest (.task rootId)) ∧
      m.tree.phase = none ∧ Call.phases m.calls = [] := by
  obtain ⟨hpaths, hphases, -, -, hrefused⟩ :=
    nester.phases_never_overlap ⟨.empty, ()⟩ ⟨.empty, .empty⟩ {} false
  obtain ⟨u, hrun, hjournal⟩ := nester_run
  obtain ⟨ds, -, hmoments⟩ := hpaths 9 nesterSetup _ u hrun
  have hlast : u.journal = [.left .digest, .pass rootId, .entered .digest] ++
      .called .nest (.task rootId) :: ([.started .postDigest 1, .left .digest, .pass rootId,
        .reported (.busy .digest), .called .nest (.task rootId), .started .async 0,
        .entered .digest, .queued .postDigest 1, .queued .async 0] ++ []) := by
    rw [← u.journal.reverse_reverse, hjournal]
    rfl
  have hfirst : u.journal = [.left .digest, .pass rootId, .entered .digest,
        .called .nest (.task rootId), .started .postDigest 1, .left .digest, .pass rootId,
        .reported (.busy .digest)] ++
      .called .nest (.task rootId) :: ([.started .async 0, .entered .digest,
        .queued .postDigest 1, .queued .async 0] ++ []) := hlast
  refine ⟨u, hrun, ?_, ?_⟩
  · obtain ⟨calls, t, ds₁, ds₂, -, hto, hfrom, ht⟩ := hmoments _ _ _ hfirst
    obtain ⟨hdigest, -, -, hturn, -⟩ := hphases _ _ _ hto
    have hsteps : t.phaseSteps = [.entered .digest] := by
      rw [Tree.phaseSteps, ht]
      rfl
    rw [hsteps] at hturn
    have hphase : t.phase = some .digest := hturn.eq_of_entered
    obtain ⟨hrefuses, hrefuses'⟩ := hrefused 9 t _ hphase
    exact ⟨_, ds₁, ds₂, hto, hfrom, congrArg List.head? ht, hdigest.1 hphase, hrefuses rootId,
      hrefuses' .endless⟩
  · obtain ⟨calls, t, ds₁, ds₂, -, hto, hfrom, ht⟩ := hmoments _ _ _ hlast
    obtain ⟨-, -, -, hturn, -⟩ := hphases _ _ _ hto
    have hsteps : t.phaseSteps = [.left .digest, .entered .digest] := by
      rw [Tree.phaseSteps, ht]
      rfl
    rw [hsteps] at hturn
    have hphase : t.phase = none := hturn.eq_of_left
    have hagrees : Moment.Agrees ⟨calls ++ [], t⟩ := hto.agrees rfl
    exact ⟨_, ds₁, ds₂, hto, hfrom, congrArg List.head? ht, hphase,
      hagrees.trans (congrArg Option.toList hphase)⟩

end DataBinding
