import DataBinding.Proofs.Interlude
import DataBinding.Proofs.Readers
import DataBinding.Proofs.Turns

/-!
# Passes over watchers that only read

If the watch functions only read and nothing is registered, removed or destroyed, a pass has one of
three outcomes (`Engine.Outcome`).  It finds all watchers clean.  Or it ends early, at the watcher
that was found dirty last, with all watchers up to there clean.  Or it finds some watcher dirty, and
then all that come after the last such watcher are clean.

The watchers that a pass has found clean are still (`Engine.Still`): to check them again would find
no change and would change nothing, until something writes to the heap.
-/

namespace DataBinding

open Compute (Leads runOn)
open DataBinding.Tree (Grows)

variable {κ σ : Type}

namespace Engine

variable {E : Engine κ σ} {t u v : Tree κ σ} {w : WatcherId} {watcher : Watcher κ}

/-- To check the watcher finds no change and leaves everything but the journal as it is, as long as
the heap and the watcher are as they are. -/
def Still (E : Engine κ σ) (t : Tree κ σ) (w : WatcherId) : Prop :=
  ∀ u : Tree κ σ, u.frame = t.frame → u.store.heap = t.store.heap → u.watcher? w = t.watcher? w →
    ∃ journal, runOn (E.check w) u = some (.ok none, { u with journal }) ∧
      journal.filterMap Step.telling? = u.tellings

/-- Nothing happened between the two trees but that watchers were found clean. -/
structure Idle (E : Engine κ σ) (t u : Tree κ σ) : Prop where
  frame : u.frame = t.frame
  store : u.store = t.store
  lastDirty : u.lastDirty = t.lastDirty
  queues : u.queues = t.queues
  phase : u.phase = t.phase
  tellings : u.tellings = t.tellings
  clean : ∀ w, E.Reads t w → (E.Clean u w ↔ E.Clean t w)
  still : ∀ w, E.Still t w → E.Still u w

namespace Idle

lemma refl (E : Engine κ σ) (t : Tree κ σ) : E.Idle t t :=
  ⟨rfl, rfl, rfl, rfl, rfl, rfl, fun _ _ => Iff.rfl, fun _ h => h⟩

lemma trans (h₁ : E.Idle t u) (h₂ : E.Idle u v) : E.Idle t v where
  frame := h₂.frame.trans h₁.frame
  store := h₂.store.trans h₁.store
  lastDirty := h₂.lastDirty.trans h₁.lastDirty
  queues := h₂.queues.trans h₁.queues
  phase := h₂.phase.trans h₁.phase
  tellings := h₂.tellings.trans h₁.tellings
  clean w hw := (h₂.clean w (hw.of_frame h₁.frame)).trans (h₁.clean w hw)
  still w hw := h₂.still w (h₁.still w hw)

end Idle

lemma Still.congr (h : E.Still t w) (hframe : u.frame = t.frame)
    (hheap : u.store.heap = t.store.heap) (hw : u.watcher? w = t.watcher? w) : E.Still u w :=
  fun v hv hv' hvw => h v (hv.trans hframe) (hv'.trans hheap) (hvw.trans hw)

lemma Still.runOn_check (h : E.Still t w) :
    ∃ journal, runOn (E.check w) t = some (.ok none, { t with journal }) ∧
      journal.filterMap Step.telling? = t.tellings :=
  h t rfl rfl rfl

/-- A watcher that is still is clean. -/
lemma Still.clean (h : E.Still t w) (hreads : E.Reads t w) : E.Clean t w := by
  obtain ⟨look, hlook⟩ := exists_looks hreads
  obtain ⟨watcher, hw, -⟩ := hreads
  obtain ⟨journal, hrun, -⟩ := h.runOn_check
  rcases hlook.check_cases hw hrun with ⟨hclean, -⟩ | ⟨-, change, hr⟩
  · exact hclean
  · cases hr

/-- A watcher that was found clean is still then, and all others are as they were. -/
lemma check_of_clean (hreads : E.Reads t w) (hclean : E.Clean t w)
    {r : Except Error (Option Change)} (h : runOn (E.check w) t = some (r, u)) :
    r = .ok none ∧ E.Idle t u ∧ E.Still u w := by
  obtain ⟨look, hlook⟩ := exists_looks hreads
  obtain ⟨watcher, hw, -⟩ := id hreads
  obtain ⟨journal, hrun, hjournal⟩ := hlook.runOn_check_of_clean hw hclean
  cases h.symm.trans hrun
  have hframe : ({ t.setKind w (look t.store.heap watcher.kind).2 with journal } : Tree κ σ).frame =
      t.frame := Tree.frame_setKind hw (hlook.forget _ _)
  have hself := watcher?_looked hw (look t.store.heap watcher.kind).2 journal
  have hagain := hlook.again t.store.heap watcher.kind
  have hstill : E.Still { t.setKind w (look t.store.heap watcher.kind).2 with journal } w := by
    intro v hv hheap hvw
    have hvw' := hvw.trans hself
    have hlookv := (hlook.of_frame hframe).of_frame hv
    have hheap' : v.store.heap = t.store.heap := hheap
    have hcleanv : E.Clean v w := by
      rw [hlookv.clean_iff hvw', hheap', hagain]
      exact (hlook.clean_iff hw).1 hclean
    obtain ⟨j, hrunv, hj⟩ := hlookv.runOn_check_of_clean hvw' hcleanv
    refine ⟨j, ?_, hj⟩
    rw [hrunv, hheap', hagain, Tree.setKind_self hvw']
  refine ⟨rfl, ⟨hframe, rfl, rfl, rfl, rfl, hjournal, fun q hq => ?_, fun q hq => ?_⟩, hstill⟩
  · by_cases hqw : q = w
    · rw [hqw]
      exact ⟨fun _ => hclean, fun _ => hstill.clean (hreads.of_frame hframe)⟩
    · obtain ⟨lookq, hlookq⟩ := exists_looks hq
      obtain ⟨watcherq, hwq, -⟩ := hq
      have hwq' := (Tree.watcher?_modifyWatcher_of_ne (t := t) hqw
        ({ · with kind := (look t.store.heap watcher.kind).2 })).trans hwq
      rw [hlookq.clean_iff hwq]
      exact (hlookq.of_frame hframe).clean_iff hwq'
  · by_cases hqw : q = w
    · rw [hqw]
      exact hstill
    · exact hq.congr hframe rfl (Tree.watcher?_modifyWatcher_of_ne hqw _)

/-! ## A visit -/

/-- What there is to say about a walk over some watchers: `t` and `u` are the trees before and
after. -/
inductive Outcome (E : Engine κ σ) (t u : Tree κ σ) (ws : List WatcherId) :
    Except Error Findings → Prop
  | clean (hidle : E.Idle t u) (hstill : ∀ w ∈ ws, E.Still u w) :
    Outcome E t u ws (.ok ⟨false, false⟩)
  | ended {before x behind} (hidle : E.Idle t u) (hws : ws = before ++ x :: behind)
      (hx : t.lastDirty = some x) (hstill : ∀ w ∈ before ++ [x], E.Still u w) :
      Outcome E t u ws (.ok ⟨false, true⟩)
  | dirty {before x behind} (hws : ws = before ++ x :: behind) (hx : u.lastDirty = some x)
      (hstill : ∀ w ∈ behind, E.Still u w) : Outcome E t u ws (.ok ⟨true, false⟩)

section Visits

variable {phase : Phase} (hE : E.Governed)

include hE

lemma grows_visitWatcher (w : WatcherId) : Leads Grows (E.visitWatcher w) :=
  leads_visitWatcher Tree.passes_grows.toVisits.surveys (hE.invoke Tree.digests_grows) w

/-- A visit finds the watcher clean, and then nothing happens, or it leaves it marked as the one
that was found dirty last. -/
lemma visit_cases {r : Except Error Findings} (ht : t.Sound) (hphase : t.phase = some phase)
    (hactive : t.isActive w = true) (hreads : E.Reads t w)
    (h : runOn (E.visitWatcher w) t = some (r, u)) (hframe : u.frame = t.frame) :
    (E.Idle t u ∧ E.Still u w ∧ r = .ok ⟨false, t.lastDirty == some w⟩) ∨
      (u.lastDirty = some w ∧ r = .ok ⟨true, false⟩) := by
  rcases visitWatcher_cases h with ⟨hinactive, -, -⟩ | ⟨-, result, v, hcheck, hrest⟩
  · rw [hactive] at hinactive
    cases hinactive
  obtain ⟨look, hlook⟩ := exists_looks hreads
  obtain ⟨watcher, hw, -⟩ := id hreads
  rcases hlook.check_cases hw hcheck with ⟨hclean, rfl⟩ | ⟨-, change, rfl⟩
  · obtain ⟨-, hidle, hstill⟩ := check_of_clean hreads hclean hcheck
    obtain ⟨e, he, -⟩ | ⟨-, rfl, rfl⟩ | ⟨change, hchange, -⟩ := hrest
    · cases he
    · rw [← hidle.lastDirty]
      exact .inl ⟨hidle, hstill, rfl⟩
    · cases hchange
  · obtain ⟨e, he, -⟩ | ⟨hnone, -⟩ | ⟨change', -, rfl, hnotify⟩ := hrest
    · cases he
    · cases hnone
    · have htv := interlude_check hE w hcheck phase hphase
      have hvu := interlude_notify hE w change' hnotify phase htv.1
      have hsound := htv.2.sound ht
      have hmarked : v.Grows { v with lastDirty := some w } := .of_frame rfl
      have hmid : v.frame = t.frame :=
        htv.2.later.frame_eq (hmarked.later.trans hvu.2.later) hsound
          (hvu.2.sound (hmarked.sound hsound)) hframe
      exact .inr ⟨hvu.2.steady (hmarked.sound hsound) (hframe.trans hmid.symm), rfl⟩

/-- The outcome of visits to watchers that only read. -/
theorem outcome_of_visits {ws : List WatcherId} {r : Except Error Findings} (ht : t.Sound)
    (hphase : t.phase = some phase) (hnodup : ws.Nodup) (hactive : ∀ w ∈ ws, t.isActive w = true)
    (hreads : ∀ w ∈ ws, E.Reads t w)
    (h : runOn (Routine.inOrder E.visitWatcher ws) t = some (r, u)) (hframe : u.frame = t.frame) :
    E.Outcome t u ws r := by
  induction ws generalizing t r with
  | nil =>
    cases h
    exact .clean (.refl E _) fun w hw => nomatch hw
  | cons w ws ih =>
    rw [List.forall_mem_cons] at hactive hreads
    rw [List.nodup_cons] at hnodup
    have hvisit := fun {r₁ v} (hrun : runOn (E.visitWatcher w) t = some (r₁, v)) hv =>
      visit_cases hE ht hphase hactive.1 hreads.1 hrun hv
    rcases Routine.runOn_andThen_cases h with ⟨e, hrun, -⟩ | ⟨a, hrun, ha, rfl⟩ |
      ⟨a, v, r₂, hrun, ha, hrun', rfl⟩
    · -- a visit has no error of its own
      rcases hvisit hrun hframe with ⟨-, -, hr⟩ | ⟨-, hr⟩ <;> cases hr
    · rcases hvisit hrun hframe with ⟨hidle, hstill, hr⟩ | ⟨-, hr⟩
      · cases hr
        rw [show (t.lastDirty == some w) = true from ha]
        have hws : w :: ws = [] ++ w :: ws := rfl
        refine .ended hidle hws (beq_iff_eq.1 ha) ?_
        simpa using hstill
      · cases hr
        cases ha
    · have htv := grows_visitWatcher hE w hrun
      have hvu := Routine.leads_inOrder (grows_visitWatcher hE) ws hrun'
      have hmid : v.frame = t.frame :=
        htv.later.frame_eq hvu.later (htv.sound ht) (hvu.sound (htv.sound ht)) hframe
      have hrest := ih (htv.sound ht) (inPhase_visitWatcher hE w hrun phase hphase).1 hnodup.2
        (fun w hw => (Tree.isActive_of_frame hmid w).trans (hactive.2 w hw))
        (fun w hw => (hreads.2 w hw).of_frame hmid) hrun' (hframe.trans hmid.symm)
      rcases hvisit hrun hmid with ⟨hidle, hstill, hr⟩ | ⟨hmark, hr⟩
      · cases hr
        rw [show (t.lastDirty == some w) = false from ha] at *
        cases hrest with
        | clean hidle' hstill' =>
          refine .clean (hidle.trans hidle') ?_
          rw [List.forall_mem_cons]
          exact ⟨hidle'.still w hstill, hstill'⟩
        | @ended before x behind hidle' hws hx hstill' =>
          have hwws : w :: ws = (w :: before) ++ x :: behind := by rw [hws]; rfl
          refine .ended (hidle.trans hidle') hwws (hidle.lastDirty.symm.trans hx) ?_
          rw [List.cons_append, List.forall_mem_cons]
          exact ⟨hidle'.still w hstill, hstill'⟩
        | @dirty before x behind hws hx hstill' =>
          have hwws : w :: ws = (w :: before) ++ x :: behind := by rw [hws]; rfl
          exact .dirty hwws hx hstill'
      · cases hr
        cases hrest with
        | clean hidle' hstill' =>
          have hws : w :: ws = [] ++ w :: ws := rfl
          exact .dirty hws (hidle'.lastDirty.trans hmark) hstill'
        | @ended before x behind hidle' hws hx hstill' =>
          -- the mark would have to be further on in the list, where the watcher is not
          have hxw : w = x := Option.some.inj (hmark.symm.trans hx)
          refine absurd ?_ hnodup.1
          rw [hws, hxw]
          exact List.mem_append_right _ (List.mem_cons_self ..)
        | @dirty before x behind hws hx hstill' =>
          have hwws : w :: ws = (w :: before) ++ x :: behind := by rw [hws]; rfl
          exact .dirty hwws hx hstill'

end Visits

end Engine

end DataBinding
