import DataBinding.Proofs.Coverage
import DataBinding.Proofs.Itineraries

/-!
# Who has a turn in a pass

A pass reads the watchers of a scope when it comes to the scope, and whatever the procedures that it
calls register or remove from then on, it goes on with that list and leaves out those that are not
registered any more when their turn comes.  So nobody is skipped because of someone else: a pass
that is not ended early checks, scope by scope, the watchers that were there when it came and are
there in their turn, each once and the newest first (`Host.pass_skips_nobody`).
-/

namespace DataBinding

open Compute (Leads runOn)
open DataBinding.Tree (Checked Unchecked Grows InPhase)

variable {κ σ : Type}

/-! ## The checks in a journal -/

/-- The watcher that is checked in a step, if one is. -/
def Step.check? : Step κ → Option WatcherId
  | .checked w => some w
  | _ => none

namespace Tree

variable {t u : Tree κ σ} {w : WatcherId}

/-- The watchers that were checked, the last one first. -/
def checks (t : Tree κ σ) : List WatcherId := t.journal.filterMap Step.check?

lemma Unchecked.checks (h : Unchecked t u) : u.checks = t.checks := by
  obtain ⟨steps, heq, hnone⟩ := h
  rw [Tree.checks, heq, List.filterMap_append, List.filterMap_eq_nil_iff.2, List.nil_append,
    Tree.checks]
  intro step hstep
  cases step with
  | checked w => exact absurd hstep (hnone w)
  | _ => rfl

lemma Checked.mem {ws : List WatcherId} (h : Checked t u w) (hws : u.checks = ws ++ t.checks) :
    w ∈ ws := by
  obtain ⟨steps, heq, hmem⟩ := h
  rw [checks, heq, List.filterMap_append] at hws
  rw [← List.append_cancel_right hws]
  exact List.mem_filterMap.2 ⟨.checked w, hmem, rfl⟩

end Tree

/-! ## Stops -/

/-- The watchers that are still there when their turn comes. -/
def Stop.attending (stop : Stop κ σ) : List WatcherId :=
  (stop.legs.filter fun leg => leg.before.isActive leg.of).map Leg.of

namespace Engine

variable {E : Engine κ σ} {t u : Tree κ σ} {w : WatcherId} {s : ScopeId} {phase : Phase}
  {stop : Stop κ σ}

/-- A stop of a pass: the watchers that the scope has when the pass comes there have their turns,
and none of them ends the pass. -/
def Inspects (E : Engine κ σ) (stop : Stop κ σ) (t u : Tree κ σ) : Prop :=
  stop.legs.map Leg.of = (t.scope stop.scope).watchers ∧
    Itinerary (Routine.Goes E.visitWatcher) stop.legs t u

lemma exists_inspects (h : Routine.Goes E.visitScope s t u) :
    ∃ stop : Stop κ σ, stop.scope = s ∧ E.Inspects stop t u := by
  obtain ⟨f, hrun, hf⟩ := h
  rw [visitScope, Compute.runOn_read_bind] at hrun
  obtain ⟨legs, hlegs, hitinerary⟩ := Routine.exists_itinerary_of_inOrder hrun hf
  exact ⟨⟨s, legs⟩, rfl, hlegs, hitinerary⟩

/-- Those who attend were in the list of the scope. -/
lemma mem_watchers_of_attending (h : E.Inspects stop t u) (hw : w ∈ stop.attending) :
    w ∈ (t.scope stop.scope).watchers := by
  obtain ⟨leg, hleg, rfl⟩ := List.mem_map.1 hw
  rw [← h.1]
  exact List.mem_map_of_mem (List.mem_filter.1 hleg).1

lemma nodup_attending (ht : t.Sound) (h : E.Inspects stop t u) : stop.attending.Nodup := by
  have hnodup := ht.nodup_watchers stop.scope
  rw [← h.1] at hnodup
  exact hnodup.sublist (List.filter_sublist.map Leg.of)

section Governed

variable (hE : E.Governed)

include hE

/-- In its turn a watcher is checked if it is still there, and nothing else is. -/
lemma unchecked_of_visitWatcher {r : Except Error Findings} (hphase : t.phase = some phase)
    (h : runOn (E.visitWatcher w) t = some (r, u)) : t.isActive w = false ∧ u = t ∨
      t.isActive w = true ∧ Unchecked (t.note (.checked w)) u := by
  rcases visitWatcher_cases h with ⟨hactive, -, rfl⟩ | ⟨hactive, result, v, hcheck, hrest⟩
  · exact .inl ⟨hactive, rfl⟩
  have hcall := hE.inPhase Tree.observes_unchecked.toDefers
  obtain ⟨hvphase, htv⟩ :=
    related_check Tree.observes_unchecked.inPhase.notices hcall hcheck phase hphase
  refine .inr ⟨hactive, trans_of Unchecked htv ?_⟩
  rcases hrest with ⟨e, -, -, hreport⟩ | ⟨-, -, rfl⟩ | ⟨change, -, -, hnotify⟩
  · exact (leads_reportError Tree.observes_unchecked.inPhase.toAdmits.grants e hreport phase
      hvphase).2
  · exact refl_of Unchecked _
  · have hmarked : Unchecked v { v with lastDirty := some w } := .of_journal rfl
    exact trans_of Unchecked hmarked
      (leads_contained (E := E) Tree.observes_unchecked.inPhase.toAdmits.grants
        (leads_notify Tree.observes_unchecked.inPhase.notices hcall w change) hnotify phase
        hvphase).2

lemma checks_of_visitWatcher {r : Except Error Findings} (hphase : t.phase = some phase)
    (h : runOn (E.visitWatcher w) t = some (r, u)) :
    u.checks = (if t.isActive w then [w] else []) ++ t.checks := by
  rcases unchecked_of_visitWatcher hE hphase h with ⟨hactive, rfl⟩ | ⟨hactive, hnone⟩
  · simp [hactive]
  · rw [hnone.checks, hactive]
    rfl

lemma inPhase_of_inspects (h : E.Inspects stop t u) : InPhase Grows t u :=
  h.2.related fun _ _ _ ⟨_, hrun, _⟩ => inPhase_visitWatcher hE _ hrun

/-- At a stop those are checked that are still there in their turn. -/
lemma checks_of_inspects (hphase : t.phase = some phase) (h : E.Inspects stop t u) :
    u.checks = stop.attending.reverse ++ t.checks := by
  refine h.2.tally_of_ite (P := fun t => t.phase = some phase) hphase ?_ ?_
  · rintro i t v hphase ⟨f, hrun, -⟩
    exact (inPhase_visitWatcher hE i hrun phase hphase).1
  · rintro i t v hphase ⟨f, hrun, -⟩
    exact checks_of_visitWatcher hE hphase hrun

end Governed

end Engine

/-! ## Passes -/

/-- A pass that is not ended early and leaves the tree of scopes as it was comes to the scope and
its descendants, each parent before its children.  In each scope the watchers that it has at this
moment have their turns, the newest first, and those are checked that are still there in their turn.
Nobody is checked twice, and nobody outside of the scope and its descendants. -/
theorem Host.pass_skips_nobody (H : Host κ σ) {limit : ℕ} {s : ScopeId} {t u : Tree κ σ}
    {phase : Phase} {f : Findings} (ht : t.Sound) (hs : s < t.scopes.size)
    (hphase : t.phase = some phase)
    (hwalk : runOn (Routine.walk (H.engine limit).visitScope limit s) (t.note (.pass s)) =
      some (.ok f, u))
    (hfull : f.ended = false) (hshape : t.SameShape u) :
    ∃ stops, Itinerary (H.engine limit).Inspects stops (t.note (.pass s)) u ∧
      stops.map (·.of.scope) = t.descendants s ∧
      (∀ p c, t.Under s p → c ∈ (t.scope p).children → [p, c].Sublist (t.descendants s)) ∧
      (∀ stop ∈ stops, (stop.before.scope stop.of.scope).watchers.Pairwise (· > ·)) ∧
      u.checks = (stops.flatMap (·.of.attending)).reverse ++ t.checks ∧
      (stops.flatMap (·.of.attending)).Nodup ∧
      ∀ w, Checked t u w → t.Under s (u.home w) := by
  have hE := H.governed limit
  have hgrows : ∀ a, Leads Grows ((H.engine limit).visitScope a) :=
    Engine.leads_visitScope Tree.passes_grows.toVisits.surveys
      (H.tame_of_digests Tree.digests_grows limit).invoke
  have hnoted : (t.note (.pass s)).Sound := ht.of_frame rfl
  obtain ⟨legs, hlegs, hitinerary⟩ :=
    Routine.exists_itinerary_of_full_walk hgrows hnoted hs hshape hwalk hfull
  obtain ⟨stops, hstops, hinspects⟩ :=
    hitinerary.refine (g := Stop.scope) fun _ _ _ => Engine.exists_inspects
  have hscopes : stops.map (·.of.scope) = t.descendants s := by
    have hsame : t.SameShape (t.note (.pass s)) := .of_scopes rfl
    rw [hstops, hlegs, hsame.descendants_eq]
  have hstep : ∀ stop t v, (H.engine limit).Inspects stop t v → InPhase Grows t v :=
    fun _ _ _ => Engine.inPhase_of_inspects hE
  have hlater : ∀ stop ∈ stops, stop.before.Sound ∧ Tree.Later stop.before u := fun stop hmem => by
    obtain ⟨hbefore, hafter⟩ := hinspects.between hstep hmem
    obtain ⟨hstopphase, hgrown⟩ := hbefore phase hphase
    have hturn := hstep _ _ _ (hinspects.step_of_mem hmem)
    have hrest := (trans_of (InPhase Grows) hturn hafter) phase hstopphase
    exact ⟨hgrown.sound hnoted, hrest.2.later⟩
  have hhome : ∀ stop ∈ stops, ∀ w ∈ stop.of.attending, u.home w = stop.of.scope := by
    intro stop hmem w hw
    obtain ⟨hsound, hafter⟩ := hlater stop hmem
    have hlisted := Engine.mem_watchers_of_attending (hinspects.step_of_mem hmem) hw
    rw [hafter.home_eq (hsound.lt_size_of_mem_watchers hlisted), hsound.home_eq hlisted]
  have hchecks : u.checks = (stops.flatMap (·.of.attending)).reverse ++ t.checks :=
    hinspects.tally (P := fun t => t.phase = some phase) hphase
      (fun stop t v hphase h => (hstep stop t v h phase hphase).1)
      fun stop t v hphase h => Engine.checks_of_inspects hE hphase h
  refine ⟨stops, hinspects, hscopes, fun p c hp hc => ht.parent_before_child hs hp hc,
    fun stop hmem => (hlater stop hmem).1.watchers_sorted _, hchecks, ?_, fun w hw => ?_⟩
  · refine List.nodup_flatMap.2 ⟨fun stop hmem => ?_, ?_⟩
    · exact Engine.nodup_attending (hlater stop hmem).1 (hinspects.step_of_mem hmem)
    · have hdistinct := ht.nodup_descendants s
      rw [← hscopes, List.Nodup, List.pairwise_map] at hdistinct
      refine hdistinct.imp_of_mem fun {stop stop'} hmem hmem' hne w hw hw' => hne ?_
      rw [← hhome stop hmem w hw, hhome stop' hmem' w hw']
  · obtain ⟨stop, hmem, hattending⟩ := List.mem_flatMap.1 (List.mem_reverse.1 (hw.mem hchecks))
    rw [hhome stop hmem w hattending, ← ht.mem_descendants hs, ← hscopes]
    exact List.mem_map_of_mem (f := fun stop => stop.of.scope) hmem

/-! ## A host that removes and registers watchers in a pass -/

/-- The procedures of a host that prunes its watchers. -/
inductive Pruner where
  | prune
  | watch
  | ignore

/-- A host with a watch that removes a watcher behind it and itself, and registers one in its own
scope and one in a scope that is still to come. -/
def pruner : Host Pruner Unit where
  library := ⟨fun _ _ _ => .endless, fun _ _ => .endless⟩
  report := fun _ host => host
  procedure
    | .prune, _ => do
      Program.request (.deregister (.watcher 1))
      Program.request (.deregister (.watcher 2))
      discard <| Program.request (.watch rootId .watch .ignore false)
      discard <| Program.request (.watch 1 .watch .ignore false)
      return .undefined
    | _, _ => return .undefined

/-- Registers three watchers in the root, of which the newest prunes, and one in a child. -/
def prunerSetup : Program Pruner Unit Unit := do
  let s ← Program.request (.newChild rootId false rootId)
  discard <| Program.request (.watch rootId .watch .ignore false)
  discard <| Program.request (.watch rootId .watch .ignore false)
  discard <| Program.request (.watch rootId .prune .ignore false)
  discard <| Program.request (.watch s .watch .ignore false)

/-- The first pass of that host. -/
lemma pruner_run : ∃ t, pruner.run 9 prunerSetup
      (.plant ⟨.empty, ()⟩ ⟨.empty, .empty⟩ {} false) = some (.ok (), t) ∧ t.scopes.size = 2 ∧
    t.begun.checks = [] ∧ t.begun.descendants rootId = [0, 1] ∧
    ∃ u, runOn (Routine.walk (pruner.engine 9).visitScope 9 rootId) (t.begun.note (.pass rootId)) =
        some (.ok ⟨true, false⟩, u) ∧ t.begun.SameShape u ∧ u.checks = [3, 5, 0, 2] := by
  generalize hx : pruner.run 9 prunerSetup _ = x
  cbv at hx
  subst hx
  refine ⟨_, rfl, rfl, rfl, rfl, ?_⟩
  generalize hy : runOn _ _ = y
  cbv at hy
  subst hy
  refine ⟨_, rfl, ⟨rfl, fun b => ?_⟩, rfl⟩
  obtain _ | _ | b := b <;> rfl

/-- The two watchers that are removed are left out, the oldest one behind them is checked all the
same, and of the two that are registered the one in the scope that is still to come is checked. -/
theorem pruner_skips_nobody : ∃ t u : Tree Pruner Unit,
    runOn (Routine.walk (pruner.engine 9).visitScope 9 rootId) (t.begun.note (.pass rootId)) =
      some (.ok ⟨true, false⟩, u) ∧ t.begun.SameShape u ∧
    ∃ stops, Itinerary (pruner.engine 9).Inspects stops (t.begun.note (.pass rootId)) u ∧
      stops.map (·.of.scope) = [0, 1] ∧ stops.flatMap (·.of.attending) = [2, 0, 5, 3] := by
  obtain ⟨t, hsetup, hsize, hchecks, hdescendants, u, hwalk, hshape, hchecked⟩ := pruner_run
  have hsound : t.begun.Sound :=
    (Host.sound_of_run hsetup (Tree.sound_plant ..)).of_frame (Engine.frame_begun t)
  have hroot : rootId < t.begun.scopes.size := by
    rw [Tree.size_scopes_of_frame (Engine.frame_begun t), hsize]
    exact Nat.zero_lt_two
  obtain ⟨stops, hstops, hscopes, -, -, hall, -⟩ :=
    pruner.pass_skips_nobody hsound hroot (Engine.phase_begun t) hwalk rfl hshape
  refine ⟨t, u, hwalk, hshape, stops, hstops, hscopes.trans hdescendants, ?_⟩
  rw [hchecks, hchecked, List.append_nil] at hall
  rw [← List.reverse_reverse (List.flatMap _ _), ← hall]
  rfl

end DataBinding
