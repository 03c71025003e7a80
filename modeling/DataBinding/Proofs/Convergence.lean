import DataBinding.Proofs.Passes
import DataBinding.Proofs.Rounds

/-!
# What a settled digest vouches for

A digest settles with a pass that finds nothing dirty.  Such a pass may end early, at the watcher
that the pass before had marked, and then it takes for granted that the watchers behind that one are
clean.  They were when the pass before came to its end; but the tasks that wait for a pass run in
between, and what they write nobody looks at.

So a digest in which nothing is registered, removed or destroyed leaves all watchers clean just if
the tasks that ran before its last pass left those clean that stand behind the mark
(`clean_iff_of_settled`).
-/

namespace DataBinding

open Compute (runOn)
variable {κ σ : Type}

namespace Engine

variable {E : Engine κ σ} {t u v : Tree κ σ} {s : ScopeId} {w : WatcherId} {phase : Phase}

/-! ## One pass -/

lemma Idle.of_note (t : Tree κ σ) (step : Step κ) (h : step.telling? = none) :
    E.Idle t (t.note step) where
  frame := rfl
  store := rfl
  lastDirty := rfl
  queues := rfl
  phase := rfl
  tellings := List.filterMap_cons_none h
  clean w hw := by
    obtain ⟨look, hlook⟩ := exists_looks hw
    obtain ⟨watcher, hwatcher, -⟩ := hw
    rw [hlook.clean_iff hwatcher]
    exact (hlook.of_frame (u := t.note step) rfl).clean_iff hwatcher
  still w hw := hw.congr rfl rfl rfl

lemma Outcome.of_idle {ws : List WatcherId} {r : Except Error Findings} (h : E.Idle t v)
    (hr : E.Outcome v u ws r) : E.Outcome t u ws r := by
  cases hr with
  | clean hidle hstill => exact .clean (h.trans hidle) hstill
  | ended hidle hws hx hstill => exact .ended (h.trans hidle) hws (h.lastDirty ▸ hx) hstill
  | dirty hws hx hstill => exact .dirty hws hx hstill

section Governed

variable (hE : E.Governed)

include hE

/-- The outcome of a pass.  A pass that may not end early has seen all the levels of the tree. -/
lemma outcome_of_pass {dirty : Bool} (ht : t.Sound) (hphase : t.phase = some phase)
    (hfits : t.lastDirty = none ∨ t.Fits E.limit s) (hreads : ∀ w ∈ t.turns s, E.Reads t w)
    (h : runOn (E.pass s) t = some (.ok dirty, u)) (hframe : u.frame = t.frame) :
    t.Fits E.limit s ∧ ∃ ended, E.Outcome t u (t.turns s) (.ok ⟨dirty, ended⟩) := by
  rw [pass, Compute.runOn_change_bind] at h
  rcases Compute.runOn_bind_cases h with ⟨e, -, hr⟩ | ⟨f, v, hwalk, hrest⟩
  · cases hr
  cases hrest
  have hnoted : (t.note (.pass s)).Sound := ht.of_frame rfl
  have hvisit := grows_visitWatcher hE
  have hseq := Routine.run_inOrder_of_walk hvisit hnoted hwalk hframe
  rw [Tree.turnsWithin_of_frame (show (t.note (.pass s)).frame = t.frame from rfl)] at hseq
  have hout : E.Outcome t u (t.turnsWithin E.limit s) (.ok f) := by
    refine .of_idle (.of_note t (.pass s) rfl) (outcome_of_visits hE hnoted hphase
      (ht.nodup_turnsWithin _ _) (fun w hw => ht.isActive_of_mem_turnsWithin hw) ?_ hseq hframe)
    intro w hw
    obtain ⟨b, hb, hwb⟩ := Tree.exists_scope_of_mem_turnsWithin hw
    exact (hreads w (ht.mem_turns.2 ⟨b, hb, hwb⟩)).of_frame rfl
  have hall : t.Fits E.limit s := by
    rcases hfits with hnone | hfits
    · -- without a mark the pass was not ended
      refine (Routine.fits_of_walk hvisit hnoted hwalk ?_ hframe).of_frame rfl
      generalize hr : (Except.ok f : Except Error Findings) = r at hout
      cases hout with
      | clean => cases hr; rfl
      | dirty => cases hr; rfl
      | ended _ _ hx => rw [hnone] at hx; cases hx
    · exact hfits
  rw [hall.turnsWithin_eq ht] at hout
  exact ⟨hall, f.ended, hout⟩

/-! ## Rounds -/

/-- What a round can rely on: the levels are known unless no watcher is marked, and the watchers
behind the mark are still. -/
structure Vouched (E : Engine κ σ) (s : ScopeId) (t : Tree κ σ) : Prop where
  fits : t.lastDirty = none ∨ t.Fits E.limit s
  still : ∀ w, t.Behind s w → E.Still t w

/-- A round that leaves something to do leaves the watchers behind the mark still. -/
lemma Round.vouched {dirty : Bool} (ht : t.Sound) (hphase : t.phase = some phase)
    (hreads : ∀ w ∈ t.turns s, E.Reads t w) (hv : E.Vouched s t) (h : E.Round s dirty t u)
    (hunsettled : dirty = true ∨ u.queues.async ≠ []) (hframe : u.frame = t.frame) :
    E.Vouched s u := by
  obtain ⟨v, hdrain, hpass⟩ := h
  obtain ⟨hvphase, htv⟩ := inPhase_drain hE .async hdrain phase hphase
  have hvu := (inPhase_pass hE s hpass phase hvphase).2
  have hvsound := htv.sound ht
  have hmid : v.frame = t.frame :=
    htv.later.frame_eq hvu.later hvsound (hvu.sound hvsound) hframe
  have hmark : v.lastDirty = t.lastDirty := htv.steady ht hmid
  have hfits : v.lastDirty = none ∨ v.Fits E.limit s :=
    hv.fits.imp (hmark.trans ·) (Tree.Fits.of_frame · hmid)
  have hreadsv : ∀ w ∈ v.turns s, E.Reads v w := fun w hw =>
    (hreads w (Tree.turns_of_frame hmid s ▸ hw)).of_frame hmid
  have huv := hframe.trans hmid.symm
  obtain ⟨hall, ended, hout⟩ := outcome_of_pass hE hvsound hvphase hfits hreadsv hpass huv
  refine ⟨.inr (hall.of_frame huv), fun w ⟨x, hx, hw⟩ => ?_⟩
  rw [Tree.turns_of_frame huv] at hw
  have hempty : v.queues.async = [] := tasks_of_drainWithin hdrain
  generalize hr : (Except.ok ⟨dirty, ended⟩ : Except Error Findings) = r at hout
  cases hout with
  | clean hidle hstill => exact hstill w (hw.subset (by simp))
  | ended hidle =>
    -- the pass called no listener, so there is nothing to do
    cases hr
    rcases hunsettled with h | h
    · cases h
    · exact absurd ((congrArg Queues.async hidle.queues).trans hempty) h
  | @dirty before y behind hws hy hstill =>
    cases hy.symm.trans hx
    refine hstill w ((pair_sublist_iff ?_).1 (hws ▸ hw))
    exact hws ▸ hvsound.nodup_turns s

lemma Rounds.vouched {n : ℕ} (ht : t.Sound) (hphase : t.phase = some phase)
    (hreads : ∀ w ∈ t.turns s, E.Reads t w) (hv : E.Vouched s t) (h : E.Rounds s n t u)
    (hframe : u.frame = t.frame) : E.Vouched s u := by
  induction h with
  | none t => exact hv
  | @more dirty n t v u hround hunsettled hrest ih =>
    obtain ⟨hvphase, htv⟩ := hround.inPhase hE phase hphase
    have hvu := (hrest.inPhase hE phase hvphase).2
    have hvsound := htv.sound ht
    have hmid : v.frame = t.frame :=
      htv.later.frame_eq hvu.later hvsound (hvu.sound hvsound) hframe
    refine ih hvsound hvphase (fun w hw => ?_)
      (hround.vouched hE ht hphase hreads hv hunsettled hmid) (hframe.trans hmid.symm)
    exact (hreads w (Tree.turns_of_frame hmid s ▸ hw)).of_frame hmid

end Governed

end Engine

/-! ## Tasks that write nothing -/

namespace Tree

variable {t u v : Tree κ σ} {w : WatcherId}

/-- Every watcher keeps its record and its memory. -/
def Kept (t u : Tree κ σ) : Prop :=
  ∀ w watcher, t.watcher? w = some watcher →
    ∃ watcher', u.watcher? w = some watcher' ∧ watcher'.kind = watcher.kind ∧
      watcher'.last = watcher.last

lemma Kept.of_watchers (h : u.watchers = t.watchers) : Kept t u :=
  fun w watcher hw => ⟨watcher, by simpa [watcher?, h] using hw, rfl, rfl⟩

instance : IsPreorder (Tree κ σ) Kept where
  refl _ := .of_watchers rfl
  trans _ _ _ h₁ h₂ w watcher hw := by
    obtain ⟨watcher₁, hw₁, hkind₁, hlast₁⟩ := h₁ w watcher hw
    obtain ⟨watcher₂, hw₂, hkind₂, hlast₂⟩ := h₂ w watcher₁ hw₁
    exact ⟨watcher₂, hw₂, hkind₂.trans hkind₁, hlast₂.trans hlast₁⟩

lemma kept_removeWatcher (t : Tree κ σ) (w : WatcherId) : Kept t (t.removeWatcher w) := by
  intro q watcher hq
  have hkept : ∃ watcher', (t.modifyWatcher w ({ · with active := false })).watcher? q =
      some watcher' ∧ watcher'.kind = watcher.kind ∧ watcher'.last = watcher.last := by
    by_cases hqw : q = w
    · subst hqw
      refine ⟨{ watcher with active := false }, ?_, rfl, rfl⟩
      rw [watcher?_modifyWatcher_self, hq]
      rfl
    · exact ⟨watcher, (watcher?_modifyWatcher_of_ne hqw _).trans hq, rfl, rfl⟩
  rcases removeWatcher_cases t w with h | ⟨_, -, ⟨-, h⟩ | ⟨-, h⟩⟩
  · rw [h]
    exact ⟨watcher, hq, rfl, rfl⟩
  · rw [h]
    exact hkept
  · rw [h]
    exact hkept

lemma watchers_tearDown (t : Tree κ σ) (s : ScopeId) : (t.tearDown s).watchers = t.watchers := by
  obtain ⟨_, h⟩ := tearDown_eq_scopes t s
  rw [h]

lemma drains_kept : Drains (Kept (κ := κ) (σ := σ)) where
  act {t u} h := by
    cases h.registers with
    | addWatcher s kind byValue =>
      intro w watcher hw
      exact ⟨watcher, (watcher?_addWatcher_of_lt kind byValue (lt_size_of_watcher? hw)).trans hw,
        rfl, rfl⟩
    | removeWatcher w => exact kept_removeWatcher t w
    | removeListener l =>
      unfold Tree.removeListener
      split <;> exact .of_watchers rfl
    | newScope | addListener => exact .of_watchers rfl
    | nothing _ hwatchers => exact .of_watchers hwatchers
  tick h := by rcases h.eq_or_eq with ⟨_, _, rfl⟩ | ⟨_, _, rfl⟩ <;> exact .of_watchers rfl
  beginDestroy _ := .of_watchers rfl
  tearDown {t u s} _ hu := by
    have htorn : Kept u (u.tearDown s) := .of_watchers (watchers_tearDown u s)
    exact trans_of Kept hu htorn
  dequeue {t u q task} h := by
    obtain ⟨_, rfl⟩ := eq_of_dequeue? h
    exact .of_watchers rfl

/-- Watchers in the same places with the same records and memories are the same. -/
lemma Kept.watcher?_eq (h : Kept t u) (hframe : u.frame = t.frame) (w : WatcherId) :
    u.watcher? w = t.watcher? w := by
  have hstatic := watcher?_of_frame hframe w
  cases hw : t.watcher? w with
  | none =>
    rw [hw] at hstatic
    exact Option.map_eq_none_iff.1 hstatic
  | some watcher =>
    obtain ⟨watcher', hw', hkind, hlast⟩ := h w watcher hw
    rw [hw, hw'] at hstatic
    have hs := Option.some.inj hstatic
    have hscope := congrArg Watcher.scope hs
    have hbyValue := congrArg Watcher.byValue hs
    have hactive := congrArg Watcher.active hs
    simp only [Watcher.static] at hscope hbyValue hactive
    obtain ⟨_, _, _, _, _⟩ := watcher
    obtain ⟨_, _, _, _, _⟩ := watcher'
    simp only at hkind hlast hscope hbyValue hactive
    rw [hw', hkind, hlast, hscope, hbyValue, hactive]

end Tree

/-! ## Settled digests -/

/-- After a pass that found nothing dirty all watchers are clean just if those behind the mark
are. -/
lemma Engine.clean_iff_of_outcome {E : Engine κ σ} {s : ScopeId} {t u : Tree κ σ} {ended : Bool}
    (ht : t.Sound) (hreads : ∀ w ∈ t.turns s, E.Reads t w) (hframe : u.frame = t.frame)
    (h : E.Outcome t u (t.turns s) (.ok ⟨false, ended⟩)) :
    (∀ w ∈ u.turns s, E.Clean u w) ↔ ∀ w, t.Behind s w → E.Clean t w := by
  have hreadsu : ∀ w ∈ t.turns s, E.Reads u w := fun w hw => (hreads w hw).of_frame hframe
  rw [Tree.turns_of_frame hframe]
  generalize hr : (Except.ok ⟨false, ended⟩ : Except Error Findings) = r at h
  cases h with
  | dirty => cases hr
  | clean hidle hstill =>
    refine ⟨fun _ w ⟨x, _, hw⟩ => ?_, fun _ w hw => (hstill w hw).clean (hreadsu w hw)⟩
    have hmem : w ∈ t.turns s := hw.subset (by simp)
    exact (hidle.clean w (hreads w hmem)).1 ((hstill w hmem).clean (hreadsu w hmem))
  | @ended before x behind hidle hws hx hstill =>
    have hnodup := hws ▸ ht.nodup_turns s
    constructor
    · rintro hall w ⟨y, -, hw⟩
      have hmem : w ∈ t.turns s := hw.subset (by simp)
      exact (hidle.clean w (hreads w hmem)).1 (hall w hmem)
    · intro hbehind w hw
      have hsplit : w ∈ before ++ [x] ∨ w ∈ behind := by
        rw [hws] at hw
        simpa [or_assoc] using hw
      rcases hsplit with hfront | hback
      · exact (hstill w hfront).clean (hreadsu w hw)
      · refine (hidle.clean w (hreads w hw)).2 (hbehind w ⟨x, hx, ?_⟩)
        rw [hws]
        exact (pair_sublist_iff hnodup).2 hback

open Engine (outcome_of_pass) in
/-- A digest that settles, of watchers that only read and in a frame that stays as it is, has come
to a last round.  When that round began, the watchers behind the mark were clean.  When it ends, all
watchers are clean just if the tasks of that round have left those behind the mark clean, and so
they are if the tasks have written nothing. -/
theorem Host.clean_iff_of_settled (H : Host κ σ) {limit ttl : ℕ} {s : ScopeId} {t u : Tree κ σ}
    (ht : t.Sound) (hreads : ∀ w ∈ t.turns s, (H.engine limit).Reads t w)
    (h : runOn ((H.engine limit).loop s) t = some (.ok (true, ttl), u))
    (hframe : u.frame = t.frame) :
    ∃ n t₀ t₁ v, runOn (H.engine limit).opening t = some (.ok (), t₀) ∧
      (H.engine limit).Rounds s n t₀ t₁ ∧
      runOn ((H.engine limit).drain .async) t₁ = some (.ok (), v) ∧
      runOn ((H.engine limit).pass s) v = some (.ok false, u) ∧
      (∀ w, t₁.Behind s w → (H.engine limit).Clean t₁ w) ∧
      ((∀ w ∈ u.turns s, (H.engine limit).Clean u w) ↔
        ∀ w, v.Behind s w → (H.engine limit).Clean v w) ∧
      (v.store.heap = t₁.store.heap → ∀ w ∈ u.turns s, (H.engine limit).Clean u w) := by
  have hE := H.governed limit
  set E := H.engine limit
  rcases Compute.runOn_bind_cases h with ⟨e, -, hr⟩ | ⟨_, t₀, hopening, h₁⟩
  · cases hr
  rw [Compute.runOn_read_bind] at h₁
  rcases Compute.runOn_bind_cases h₁ with ⟨e, -, hr⟩ | ⟨settled, u', hpasses, hrest⟩
  · cases hr
  cases hrest
  obtain ⟨n, t₁, -, hrounds, ⟨v, hdrain, hpass⟩, -⟩ := Engine.rounds_of_settled hpasses
  -- the frame is the same all the way
  obtain ⟨-, hopen, -⟩ := Engine.opening_cases hE hopening
  obtain ⟨hphase₀, hinterlude₀⟩ := hopen .digest (Engine.phase_begun t)
  obtain ⟨hphase₁, hgrows₁⟩ := hrounds.inPhase hE .digest hphase₀
  obtain ⟨hphasev, hinterludev⟩ := Engine.inPhase_drain hE .async hdrain .digest hphase₁
  have hgrowsu := (Engine.inPhase_pass hE s hpass .digest hphasev).2
  have hbegun : t.begun.Sound := ht.of_frame (Engine.frame_begun t)
  have hsound₀ := hinterlude₀.sound hbegun
  have hsound₁ := hgrows₁.sound hsound₀
  have hsoundv := hinterludev.sound hsound₁
  have hsoundu := hgrowsu.sound hsoundv
  have hframe₀ : t₀.frame = t.frame := by
    have h₀ := hinterlude₀.later.frame_eq
      (hgrows₁.later.trans (hinterludev.later.trans hgrowsu.later)) hsound₀ hsoundu
    exact (h₀ (hframe.trans (Engine.frame_begun t).symm)).trans (Engine.frame_begun t)
  have hframe₁ : t₁.frame = t₀.frame :=
    hgrows₁.later.frame_eq (hinterludev.later.trans hgrowsu.later) hsound₁ hsoundu
      (hframe.trans hframe₀.symm)
  have hframev : v.frame = t₁.frame :=
    hinterludev.later.frame_eq hgrowsu.later hsoundv hsoundu
      (hframe.trans (hframe₁.trans hframe₀).symm)
  have hframeu : u.frame = v.frame :=
    hframe.trans (hframev.trans (hframe₁.trans hframe₀)).symm
  have hreads_of : ∀ {x : Tree κ σ}, x.frame = t.frame → ∀ w ∈ x.turns s, E.Reads x w :=
    fun hx w hw => (hreads w (Tree.turns_of_frame hx s ▸ hw)).of_frame hx
  have hreads₁ := hreads_of (hframe₁.trans hframe₀)
  have hreadsv := hreads_of (hframev.trans (hframe₁.trans hframe₀))
  have hmark₀ : t₀.lastDirty = none :=
    (hinterlude₀.steady hbegun (hframe₀.trans (Engine.frame_begun t).symm)).trans
      (Engine.lastDirty_begun t)
  have hvouched : E.Vouched s t₁ := by
    refine hrounds.vouched hE hsound₀ hphase₀ (hreads_of hframe₀) ⟨.inl hmark₀, ?_⟩ hframe₁
    rintro w ⟨x, hx, -⟩
    rw [hmark₀] at hx
    cases hx
  have hmarkv : v.lastDirty = t₁.lastDirty := hinterludev.steady hsound₁ hframev
  have hbehind : ∀ w, v.Behind s w ↔ t₁.Behind s w := fun w => by
    rw [Tree.Behind, Tree.Behind, hmarkv, Tree.turns_of_frame hframev]
  have hclean₁ : ∀ w, t₁.Behind s w → E.Clean t₁ w := by
    rintro w ⟨x, hx, hw⟩
    exact (hvouched.still w ⟨x, hx, hw⟩).clean (hreads₁ w (hw.subset (by simp)))
  obtain ⟨-, ended, hout⟩ := outcome_of_pass hE hsoundv hphasev
    (hvouched.fits.imp (hmarkv.trans ·) (Tree.Fits.of_frame · hframev)) hreadsv hpass hframeu
  have hiff := Engine.clean_iff_of_outcome hsoundv hreadsv hframeu hout
  refine ⟨n, t₀, t₁, v, hopening, hrounds, hdrain, hpass, hclean₁, hiff, fun hheap => hiff.2 ?_⟩
  intro w hw
  have hkept := Engine.leads_drain Tree.drains_kept.inPhase (hE.inPhase Tree.drains_kept.toDefers)
    .async hdrain .digest hphase₁
  have hstill := (hvouched.still w ((hbehind w).1 hw)).congr hframev hheap
    (hkept.2.watcher?_eq hframev w)
  obtain ⟨x, -, hsub⟩ := hw
  exact hstill.clean (hreadsv w (hsub.subset (by simp)))

/-! ## A host that leaves a watcher behind -/

/-- The procedures of a host that copies one property to another by a task. -/
inductive Copier where
  | source
  | target
  | schedule
  | copy
  | ignore

/-- A host with a listener that leaves the copying to a task. -/
def copier : Host Copier Unit where
  library := ⟨fun _ _ _ => .endless, fun _ _ => .endless⟩
  report := fun _ host => host
  procedure
    | .source, _ => .compute (Store.reading (·.get 0 "source"))
    | .target, _ => .compute (Store.reading (·.get 0 "target"))
    | .schedule, _ => do
      Program.request (.evalAsync rootId .copy)
      return .undefined
    | .copy, _ => do
      Program.compute (Store.changing fun h => h.setOwn 0 "target" (h.get 0 "source"))
      return .undefined
    | .ignore, _ => return .undefined

/-- Watches both properties and digests, and then writes the one that is copied. -/
def copierSetup : Program Copier Unit Unit := do
  discard <| Program.request (.watch rootId .target .ignore false)
  discard <| Program.request (.watch rootId .source .schedule false)
  Program.request (.digest rootId)
  Program.compute (Store.changing (·.setOwn 0 "source" (.bool true)))

/-- The tree of that host before the digest that leaves the target dirty. -/
lemma copier_run : ∃ t, copier.run 9 copierSetup
      (.plant ⟨.empty, ()⟩ ⟨.empty, .empty⟩ {} false) = some (.ok (), t) ∧
    (∀ w ∈ t.turns rootId, (copier.engine 9).Reads t w) ∧
    ∃ u, runOn ((copier.engine 9).loop rootId) t = some (.ok (true, 10), u) ∧ u.frame = t.frame ∧
    0 ∈ u.turns rootId ∧ ¬ (copier.engine 9).Clean u 0 := by
  generalize hx : copier.run 9 copierSetup _ = x
  cbv at hx
  subst hx
  refine ⟨_, rfl, ?_, ?_⟩
  · intro w hw
    have hturns : w ∈ [1, 0] := by
      cbv at hw
      exact hw
    rcases List.mem_pair.1 hturns with rfl | rfl
    · exact ⟨_, rfl, copier.reads_of_reading 8 _ rfl⟩
    · exact ⟨_, rfl, copier.reads_of_reading 8 _ rfl⟩
  · generalize hy : runOn _ _ = y
    cbv at hy
    subst hy
    refine ⟨_, rfl, ?_, ?_, ?_⟩
    · cbv
    · cbv
      exact .tail _ (.head _)
    · rintro ⟨watcher, v, u, hw, hrun, hagrees⟩
      cbv at hw
      cases hw
      cbv at hrun
      cases hrun
      cbv at hagrees
      cases hagrees

/-- A settled digest need not leave all watchers clean, although nothing is registered, removed or
destroyed and the watch functions only read. -/
theorem copier_settles_dirty : ∃ t, copier.run 9 copierSetup
      (.plant ⟨.empty, ()⟩ ⟨.empty, .empty⟩ {} false) = some (.ok (), t) ∧
    (∀ w ∈ t.turns rootId, (copier.engine 9).Reads t w) ∧
    ∃ u, runOn ((copier.engine 9).loop rootId) t = some (.ok (true, 10), u) ∧ u.frame = t.frame ∧
    ¬ ∀ w ∈ u.turns rootId, (copier.engine 9).Clean u w := by
  obtain ⟨t, hsetup, hreads, u, hloop, hframe, hmem, hdirty⟩ := copier_run
  exact ⟨t, hsetup, hreads, u, hloop, hframe, fun hall => hdirty (hall 0 hmem)⟩

/-- In that digest the tasks before the last pass make a watcher behind the mark dirty. -/
theorem copier_dirties_behind : ∃ t₁ v,
    runOn ((copier.engine 9).drain .async) t₁ = some (.ok (), v) ∧
    (∀ w, t₁.Behind rootId w → (copier.engine 9).Clean t₁ w) ∧
    ¬ ∀ w, v.Behind rootId w → (copier.engine 9).Clean v w := by
  obtain ⟨t, hsetup, hreads, u, hloop, hframe, hmem, hdirty⟩ := copier_run
  have hsound := Host.sound_of_run hsetup (Tree.sound_plant ..)
  obtain ⟨_, _, t₁, v, -, -, hdrain, -, hclean, hiff, -⟩ :=
    copier.clean_iff_of_settled hsound hreads hloop hframe
  exact ⟨t₁, v, hdrain, hclean, fun hbehind => hdirty (hiff.2 hbehind 0 hmem)⟩

end DataBinding
