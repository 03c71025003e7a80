import DataBinding.Proofs.Convergence
import DataBinding.Proofs.Independence
import DataBinding.Proofs.Waiting

/-!
# The early end of passes

A pass may end early.  Here a pass that goes through all watchers (`Engine.passFully`) is compared
with it, and the digest that makes such passes only (`Engine.digestFully`) with the digest.

If the watch functions only read, nothing is registered, removed or destroyed and no task is
queued, the two digests come to the same result.  They call the same listeners with the same
arguments in the same order, and leave the same tree behind, up to the journal
(`Host.digest_iff_digestFully`).

Along a pass the watchers behind the mark stay still, as long as no watcher is found dirty
(`Engine.Poised`).  That carries over from one pass to the next, since no task runs between them.
-/

namespace DataBinding

open Compute (Leads Follows runOn runOn_bind_cases)
open DataBinding.Tree (Grows InPhase Numbered Queued)

variable {κ σ α : Type}

/-! ## Trees that differ in what the journal tells of checks -/

/-- The journals tell of the same calls of listeners, with the same arguments and in the same
order. -/
def SameTellings (l l' : List (Step κ)) : Prop :=
  l.filterMap Step.telling? = l'.filterMap Step.telling?

lemma lasting_sameTellings : Lasting (SameTellings (κ := κ)) := fun step l l' h => by
  have hl : l.filterMap Step.telling? = l'.filterMap Step.telling? := h
  rw [SameTellings, List.filterMap_cons, List.filterMap_cons, hl]

/-- Trees are alike if their journals tell of the same calls of listeners. -/
@[reducible] def Likeness.tellings : Likeness κ σ := .journal SameTellings lasting_sameTellings

namespace Tree

variable {t u v : Tree κ σ}

/-- The trees are the same up to their journals, and these tell of the same calls of listeners. -/
abbrev Same (t u : Tree κ σ) : Prop := Alike SameTellings t u

namespace Same

lemma refl (t : Tree κ σ) : t.Same t := ⟨t.journal, rfl, rfl⟩

lemma trans (h₁ : t.Same u) (h₂ : u.Same v) : t.Same v := by
  obtain ⟨journal₁, hj₁, rfl⟩ := h₁
  obtain ⟨journal₂, hj₂, rfl⟩ := h₂
  exact ⟨journal₂, hj₁.trans hj₂, rfl⟩

lemma symm (h : t.Same u) : u.Same t := by
  obtain ⟨journal, hj, rfl⟩ := h
  exact ⟨t.journal, hj.symm, rfl⟩

lemma tellings (h : t.Same u) : u.tellings = t.tellings := by
  obtain ⟨journal, hj, rfl⟩ := h
  exact hj.symm

lemma frame (h : t.Same u) : u.frame = t.frame := by
  obtain ⟨journal, -, rfl⟩ := h
  rfl

lemma queues (h : t.Same u) : u.queues = t.queues := by
  obtain ⟨journal, -, rfl⟩ := h
  rfl

end Same

/-- From the first tree to the second nothing was registered, removed, created or destroyed, and no
task was queued. -/
structure Quiet (t u : Tree κ σ) : Prop where
  frame : u.frame = t.frame
  next : u.queues.next = t.queues.next

/-- What was quiet altogether was quiet in both its parts. -/
lemma Quiet.parts (h : t.Quiet v) (ht : t.Sound) (h₁ : Grows t u) (hn₁ : Numbered t u)
    (h₂ : Grows u v) (hn₂ : Numbered u v) : t.Quiet u ∧ u.Quiet v := by
  have hu := h₁.sound ht
  have hframe := h₁.later.frame_eq h₂.later hu (h₂.sound hu) h.frame
  have hnext : u.queues.next = t.queues.next :=
    Nat.le_antisymm (Nat.le_trans hn₂ h.next.le) hn₁
  exact ⟨⟨hframe, hnext⟩, h.frame.trans hframe.symm, h.next.trans hnext.symm⟩

end Tree

namespace Engine

variable {E : Engine κ σ} {t t' u v : Tree κ σ} {s : ScopeId} {w : WatcherId} {phase : Phase}
  {ws : List WatcherId}

/-! ## Full passes -/

/-- A visit that does not end the pass. -/
def visitFully (E : Engine κ σ) (w : WatcherId) : Routine κ σ Findings := do
  let found ← E.visitWatcher w
  return { found with ended := false }

/-- A pass that goes through all watchers. -/
def passFully (E : Engine κ σ) (s : ScopeId) : Routine κ σ Bool := do
  Compute.change (·.note (.pass s))
  return (← Routine.walk (Routine.visitAll E.visitFully) E.limit s).dirty

/-- The loop of a digest with some kind of pass. -/
def loopWith (E : Engine κ σ) (pass : Routine κ σ Bool) : Routine κ σ (Bool × ℕ) := do
  E.opening
  let ttl ← Compute.read (·.config.digestTtl)
  let settled ← E.passesWith pass ttl
  return (settled, ttl)

/-- The end of a digest. -/
def finish (E : Engine κ σ) : Bool × ℕ → Routine κ σ Unit
  | (settled, ttl) => do
    leave .digest
    if settled then E.drain .postDigest else throw (.divergence ttl)

/-- A digest with some kind of pass. -/
def digestWith (E : Engine κ σ) (pass : Routine κ σ Bool) : Routine κ σ Unit := do
  E.finish (← E.loopWith pass)

/-- A digest whose passes all go through all watchers. -/
def digestFully (E : Engine κ σ) (s : ScopeId) : Routine κ σ Unit := E.digestWith (E.passFully s)

/-- The digest makes passes that may end early. -/
theorem digest_eq_digestWith (E : Engine κ σ) (s : ScopeId) :
    E.digest s = E.digestWith (E.pass s) := by
  rw [digest_eq_loop, digestWith, loop, loopWith]
  simp only [passes_eq_passesWith]
  rfl

lemma leads_visitFully {R : Tree κ σ → Tree κ σ → Prop} [IsPreorder (Tree κ σ) R]
    (h : Leads R (E.visitWatcher w)) : Leads R (E.visitFully w) :=
  h.bind fun _ => .pure _

lemma runOn_visitFully {r : Except Error Findings} (h : runOn (E.visitWatcher w) t = some (r, u)) :
    runOn (E.visitFully w) t = some (r.map ({ · with ended := false }), u) := by
  rw [visitFully, Compute.runOn_bind, h]
  cases r <;> rfl

/-- A full visit is a visit. -/
lemma exists_of_runOn_visitFully {r : Except Error Findings}
    (h : runOn (E.visitFully w) t = some (r, u)) :
    ∃ r₁, runOn (E.visitWatcher w) t = some (r₁, u) ∧ r = r₁.map ({ · with ended := false }) := by
  rcases runOn_bind_cases h with ⟨e, hrun, rfl⟩ | ⟨f, v, hrun, hr⟩
  · exact ⟨_, hrun, rfl⟩
  · cases hr
    exact ⟨_, hrun, rfl⟩

/-- A walk over still watchers finds nothing dirty and changes nothing. -/
lemma runOn_fully_of_still (hactive : ∀ w ∈ ws, t.isActive w = true)
    (hstill : ∀ w ∈ ws, E.Still t w) :
    ∃ u, runOn (Routine.inOrder E.visitFully ws) t = some (.ok ⟨false, false⟩, u) ∧ t.Same u := by
  induction ws generalizing t with
  | nil => exact ⟨t, rfl, .refl t⟩
  | cons w ws ih =>
    rw [List.forall_mem_cons] at hactive hstill
    obtain ⟨journal, hcheck, hjournal⟩ := hstill.1.runOn_check
    have hvisit : runOn (E.visitWatcher w) t =
        some (.ok ⟨false, t.lastDirty == some w⟩, { t with journal }) := by
      rw [visitWatcher, Compute.runOn_read_bind, hactive.1, if_pos rfl, inspect,
        Compute.runOn_attempt_bind_of_run hcheck]
      rfl
    have hsame : t.Same { t with journal } := ⟨journal, hjournal.symm, rfl⟩
    obtain ⟨u, hrest, hu⟩ := ih (t := { t with journal }) hactive.2
      fun x hx => (hstill.2 x hx).congr rfl rfl rfl
    refine ⟨u, ?_, hsame.trans hu⟩
    rw [Routine.inOrder, Routine.runOn_andThen_of_not_ended (runOn_visitFully hvisit) rfl, hrest]
    rfl

/-! ## Along a pass -/

/-- What is certain of a tree in which the watchers of the list are to be visited: the watchers
that come after the mark are still. -/
structure Poised (E : Engine κ σ) (phase : Phase) (t : Tree κ σ) (ws : List WatcherId) : Prop where
  sound : t.Sound
  phase : t.phase = some phase
  nodup : ws.Nodup
  active : ∀ w ∈ ws, t.isActive w = true
  reads : ∀ w ∈ ws, E.Reads t w
  still : ∀ before x behind, ws = before ++ x :: behind → t.lastDirty = some x →
    ∀ w ∈ behind, E.Still t w

section Governed

variable (hE : E.Governed)

include hE

/-- After a visit the rest of the list is to be visited, unless the visit ended the pass, and then
all the rest is still. -/
lemma Poised.visit {r : Except Error Findings} (h : E.Poised phase t (w :: ws))
    (hrun : runOn (E.visitWatcher w) t = some (r, v)) (hframe : v.frame = t.frame) :
    ∃ dirty, r = .ok ⟨dirty, false⟩ ∧ E.Poised phase v ws ∨
      r = .ok ⟨false, true⟩ ∧ (∀ x ∈ ws, v.isActive x = true) ∧ ∀ x ∈ ws, E.Still v x := by
  obtain ⟨ht, hphase, hnodup, hactive, hreads, hback⟩ := h
  rw [List.forall_mem_cons] at hactive hreads
  rw [List.nodup_cons] at hnodup
  have hactivev : ∀ x ∈ ws, v.isActive x = true := fun x hx =>
    (Tree.isActive_of_frame hframe x).trans (hactive.2 x hx)
  have hpoised : (∀ before x behind, ws = before ++ x :: behind → v.lastDirty = some x →
      ∀ w ∈ behind, E.Still v w) → E.Poised phase v ws := fun hstill => {
    sound := (grows_visitWatcher hE w hrun).sound ht
    phase := (inPhase_visitWatcher hE w hrun phase hphase).1
    nodup := hnodup.2
    active := hactivev
    reads := fun x hx => (hreads.2 x hx).of_frame hframe
    still := hstill }
  rcases visit_cases hE ht hphase hactive.1 hreads.1 hrun hframe with
    ⟨hidle, -, rfl⟩ | ⟨hmark, rfl⟩
  · cases hended : t.lastDirty == some w with
    | true =>
      refine ⟨false, .inr ⟨rfl, hactivev, fun x hx => hidle.still x ?_⟩⟩
      exact hback [] w ws rfl (beq_iff_eq.1 hended) x hx
    | false =>
      refine ⟨false, .inl ⟨rfl, hpoised fun before x behind hws hx y hy => hidle.still y ?_⟩⟩
      exact hback (w :: before) x behind (by rw [hws]; rfl) (hidle.lastDirty ▸ hx) y hy
  · -- the mark is on a watcher that is not in the rest
    refine ⟨true, .inl ⟨rfl, hpoised fun before x behind hws hx => ?_⟩⟩
    cases hmark.symm.trans hx
    refine absurd ?_ hnodup.1
    rw [hws]
    exact List.mem_append_right _ (List.mem_cons_self ..)

/-- What comes after the end of a walk that may end early a full walk does too, and changes
nothing by it. -/
lemma Poised.fully_of_early {r : Except Error Findings} (h : E.Poised phase t ws)
    (hrun : runOn (Routine.inOrder E.visitWatcher ws) t = some (r, u))
    (hframe : u.frame = t.frame) : ∃ f u', r = .ok f ∧
      runOn (Routine.inOrder E.visitFully ws) t = some (.ok ⟨f.dirty, false⟩, u') ∧ u.Same u' := by
  induction ws generalizing t r with
  | nil =>
    cases hrun
    exact ⟨_, _, rfl, rfl, .refl _⟩
  | cons w ws ih =>
    rcases Routine.runOn_andThen_cases hrun with ⟨e, hvisit, -⟩ | ⟨a, hvisit, ha, rfl⟩ |
      ⟨a, v, r₂, hvisit, ha, hrest, rfl⟩
    · obtain ⟨_, ⟨hr, -⟩ | ⟨hr, -⟩⟩ := h.visit hE hvisit hframe <;> cases hr
    · obtain ⟨_, ⟨hr, -⟩ | ⟨hr, hactive, hstill⟩⟩ := h.visit hE hvisit hframe
      · cases hr
        cases ha
      · cases hr
        obtain ⟨u', hfully, hu'⟩ := runOn_fully_of_still hactive hstill
        refine ⟨_, u', rfl, ?_, hu'⟩
        rw [Routine.inOrder, Routine.runOn_andThen_of_not_ended (runOn_visitFully hvisit) rfl,
          hfully]
        rfl
    · have htv := grows_visitWatcher hE w hvisit
      have hvu := Routine.leads_inOrder (grows_visitWatcher hE) ws hrest
      have hmid : v.frame = t.frame :=
        htv.later.frame_eq hvu.later (htv.sound h.sound) (hvu.sound (htv.sound h.sound)) hframe
      obtain ⟨dirty, ⟨hr, hpoised⟩ | ⟨hr, -⟩⟩ := h.visit hE hvisit hmid
      · cases hr
        obtain ⟨f, u', rfl, hfully, hu'⟩ := ih hpoised hrest (hframe.trans hmid.symm)
        refine ⟨_, u', rfl, ?_, hu'⟩
        rw [Routine.inOrder, Routine.runOn_andThen_of_not_ended (runOn_visitFully hvisit) rfl,
          hfully]
        rfl
      · cases hr
        cases ha

/-- A full walk has done nothing after the end of the walk that may end early. -/
lemma Poised.early_of_fully {r : Except Error Findings} (h : E.Poised phase t ws)
    (hrun : runOn (Routine.inOrder E.visitFully ws) t = some (r, u)) (hframe : u.frame = t.frame) :
    ∃ f u', r = .ok ⟨f.dirty, false⟩ ∧
      runOn (Routine.inOrder E.visitWatcher ws) t = some (.ok f, u') ∧ u.Same u' := by
  induction ws generalizing t r with
  | nil =>
    cases hrun
    exact ⟨_, _, rfl, rfl, .refl _⟩
  | cons w ws ih =>
    have hgrows : ∀ x, Leads Grows (E.visitFully x) := fun x =>
      leads_visitFully (grows_visitWatcher hE x)
    rcases Routine.runOn_andThen_cases hrun with ⟨e, hvisit, -⟩ | ⟨a, hvisit, ha, rfl⟩ |
      ⟨a, v, r₂, hvisit, ha, hrest, rfl⟩
    · obtain ⟨r₁, hvisit₁, hr₁⟩ := exists_of_runOn_visitFully hvisit
      obtain ⟨_, ⟨rfl, -⟩ | ⟨rfl, -⟩⟩ := h.visit hE hvisit₁ hframe <;> cases hr₁
    · obtain ⟨r₁, hvisit₁, hr₁⟩ := exists_of_runOn_visitFully hvisit
      obtain ⟨_, ⟨rfl, -⟩ | ⟨rfl, -⟩⟩ := h.visit hE hvisit₁ hframe
      · cases hr₁
        cases ha
      · cases hr₁
        cases ha
    · obtain ⟨r₁, hvisit₁, hr₁⟩ := exists_of_runOn_visitFully hvisit
      have htv := hgrows w hvisit
      have hvu := Routine.leads_inOrder hgrows ws hrest
      have hmid : v.frame = t.frame :=
        htv.later.frame_eq hvu.later (htv.sound h.sound) (hvu.sound (htv.sound h.sound)) hframe
      obtain ⟨dirty, ⟨rfl, hpoised⟩ | ⟨rfl, hactive, hstill⟩⟩ := h.visit hE hvisit₁ hmid
      · cases hr₁
        obtain ⟨f, u', rfl, hearly, hu'⟩ := ih hpoised hrest (hframe.trans hmid.symm)
        refine ⟨⟨dirty || f.dirty, f.ended⟩, u', rfl, ?_, hu'⟩
        rw [Routine.inOrder, Routine.runOn_andThen_of_not_ended hvisit₁ rfl, hearly]
        rfl
      · cases hr₁
        obtain ⟨u', hfully, hu'⟩ := runOn_fully_of_still hactive hstill
        cases hrest.symm.trans hfully
        refine ⟨⟨false, true⟩, v, rfl, ?_, hu'.symm⟩
        exact Routine.runOn_andThen_of_ended hvisit₁ rfl

end Governed

/-! ## From pass to pass -/

/-- What is certain of a tree in which a pass is to begin. -/
structure Ready (E : Engine κ σ) (s : ScopeId) (phase : Phase) (t : Tree κ σ) : Prop
    extends E.Vouched s t where
  sound : t.Sound
  phase : t.phase = some phase
  reads : ∀ w ∈ t.turns s, E.Reads t w

lemma Ready.poised (h : E.Ready s phase t) :
    E.Poised phase (t.note (.pass s)) (t.turnsWithin E.limit s) where
  sound := h.sound.of_frame rfl
  phase := h.phase
  nodup := h.sound.nodup_turnsWithin _ s
  active _ hw := h.sound.isActive_of_mem_turnsWithin hw
  reads w hw := by
    obtain ⟨b, hb, hwb⟩ := Tree.exists_scope_of_mem_turnsWithin hw
    exact (h.reads w (h.sound.mem_turns.2 ⟨b, hb, hwb⟩)).of_frame rfl
  still before x behind hws hx w hw := by
    have hx' : t.lastDirty = some x := hx
    rcases h.fits with hnone | hfits
    · rw [hnone] at hx'
      cases hx'
    · rw [hfits.turnsWithin_eq h.sound] at hws
      refine (h.still w ⟨x, hx', ?_⟩).congr rfl rfl rfl
      rw [hws]
      exact (pair_sublist_iff (hws ▸ h.sound.nodup_turns s)).2 hw

lemma Ready.of_same (h : E.Ready s phase t) (hu : t.Same u) : E.Ready s phase u := by
  obtain ⟨journal, -, rfl⟩ := hu
  have hturns : (t.withJournal journal).turns s = t.turns s :=
    Tree.turns_of_frame (show (t.withJournal journal).frame = t.frame from rfl) s
  exact {
    fits := h.fits.imp_right (·.of_frame rfl)
    still := fun w ⟨x, hx, hw⟩ => (h.still w ⟨x, hx, hturns ▸ hw⟩).congr rfl rfl rfl
    sound := h.sound.of_frame rfl
    phase := h.phase
    reads := fun w hw => (h.reads w (hturns ▸ hw)).of_frame rfl }

section Governed

variable (hE : E.Governed)

include hE

/-- What a pass that may end early leaves out changes nothing. -/
lemma Ready.fully_of_pass {r : Except Error Bool} (h : E.Ready s phase t)
    (hrun : runOn (E.pass s) t = some (r, u)) (hframe : u.frame = t.frame) :
    ∃ u', runOn (E.passFully s) t = some (r, u') ∧ u.Same u' := by
  have hturns : (t.note (.pass s)).turnsWithin E.limit = t.turnsWithin E.limit :=
    Tree.turnsWithin_of_frame (show (t.note (.pass s)).frame = t.frame from rfl) _
  have hgrows : ∀ w, Leads Grows (E.visitFully w) := fun w =>
    leads_visitFully (grows_visitWatcher hE w)
  have hnoted : (t.note (.pass s)).Sound := h.sound.of_frame rfl
  obtain ⟨r₁, hwalk, hr⟩ : ∃ r₁, runOn (Routine.walk E.visitScope E.limit s) (t.note (.pass s)) =
      some (r₁, u) ∧ r = r₁.map (·.dirty) := by
    rw [pass, Compute.runOn_change_bind] at hrun
    rcases runOn_bind_cases hrun with ⟨e, hwalk, rfl⟩ | ⟨f, v, hwalk, hrest⟩
    · exact ⟨_, hwalk, rfl⟩
    · cases hrest
      exact ⟨_, hwalk, rfl⟩
  have hseq := Routine.run_inOrder_of_walk (grows_visitWatcher hE) hnoted hwalk hframe
  rw [hturns] at hseq
  obtain ⟨f, u', rfl, hfully, hu'⟩ := h.poised.fully_of_early hE hseq hframe
  cases hr
  obtain ⟨hfits, -⟩ := outcome_of_pass hE h.sound h.phase h.fits h.reads hrun hframe
  rw [← hturns] at hfully
  have hback := Routine.run_walk_of_inOrder hgrows hnoted (hfits.of_frame rfl) hfully
    (hu'.frame.trans hframe)
  refine ⟨u', ?_, hu'⟩
  rw [passFully, Compute.runOn_change_bind, Compute.runOn_bind_of_ok hback]
  rfl

/-- A pass that may end early leaves out nothing that a full pass does. -/
lemma Ready.pass_of_fully {r : Except Error Bool} (h : E.Ready s phase t)
    (hrun : runOn (E.passFully s) t = some (r, u)) (hframe : u.frame = t.frame) :
    ∃ u', runOn (E.pass s) t = some (r, u') ∧ u.Same u' := by
  have hturns : (t.note (.pass s)).turnsWithin E.limit = t.turnsWithin E.limit :=
    Tree.turnsWithin_of_frame (show (t.note (.pass s)).frame = t.frame from rfl) _
  have hgrows : ∀ w, Leads Grows (E.visitFully w) := fun w =>
    leads_visitFully (grows_visitWatcher hE w)
  have hnoted : (t.note (.pass s)).Sound := h.sound.of_frame rfl
  obtain ⟨r₁, hwalk, hr⟩ : ∃ r₁, runOn (Routine.walk (Routine.visitAll E.visitFully) E.limit s)
      (t.note (.pass s)) = some (r₁, u) ∧ r = r₁.map (·.dirty) := by
    rw [passFully, Compute.runOn_change_bind] at hrun
    rcases runOn_bind_cases hrun with ⟨e, hwalk, rfl⟩ | ⟨f, v, hwalk, hrest⟩
    · exact ⟨_, hwalk, rfl⟩
    · cases hrest
      exact ⟨_, hwalk, rfl⟩
  have hseq := Routine.run_inOrder_of_walk hgrows hnoted hwalk hframe
  rw [hturns] at hseq
  obtain ⟨f, u', rfl, hearly, hu'⟩ := h.poised.early_of_fully hE hseq hframe
  cases hr
  have hfits := Routine.fits_of_walk hgrows hnoted hwalk rfl hframe
  rw [← hturns] at hearly
  have hback := Routine.run_walk_of_inOrder (grows_visitWatcher hE) hnoted hfits hearly
    (hu'.frame.trans hframe)
  refine ⟨u', ?_, hu'⟩
  rw [pass, Compute.runOn_change_bind, show E.visitScope = Routine.visitAll E.visitWatcher from rfl,
    Compute.runOn_bind_of_ok hback]
  rfl

lemma Ready.after_pass (h : E.Ready s phase t)
    (hdrain : runOn (E.drain .async) t = some (.ok (), t))
    (hrun : runOn (E.pass s) t = some (.ok true, u)) (hframe : u.frame = t.frame) :
    E.Ready s phase u where
  toVouched := Round.vouched hE h.sound h.phase h.reads h.toVouched ⟨t, hdrain, hrun⟩ (.inl rfl)
    hframe
  sound := ((inPhase_pass hE s hrun phase h.phase).2).sound h.sound
  phase := (inPhase_pass hE s hrun phase h.phase).1
  reads w hw := (h.reads w (Tree.turns_of_frame hframe s ▸ hw)).of_frame hframe

end Governed

/-! ## Digests with two kinds of passes -/

/-- The second kind of pass does in a tree that is ready for it what the first kind does, and the
first one leaves the tree ready if it found anything dirty. -/
structure Replaces (E : Engine κ σ) (s : ScopeId) (phase : Phase) (p q : Routine κ σ Bool) :
    Prop where
  grows : Leads (InPhase Grows) p
  queued : Leads (InPhase Queued) p
  follows : Follows Tree.Same q q
  same : ∀ {t u r}, E.Ready s phase t → runOn p t = some (r, u) → u.frame = t.frame →
    ∃ u', runOn q t = some (r, u') ∧ u.Same u'
  ready : ∀ {t u}, E.Ready s phase t → runOn (E.drain .async) t = some (.ok (), t) →
    runOn p t = some (.ok true, u) → u.frame = t.frame → E.Ready s phase u

section Governed

variable (hE : E.Governed) (hsame : E.Akin .tellings E)
  {p q next next' : Routine κ σ Bool}

section

include hE

lemma inPhase_numbered_drain (q : Queue) : Leads (InPhase Numbered) (E.drain q) :=
  leads_drain Tree.digests_numbered.toDrains.inPhase
    (hE.inPhase Tree.digests_numbered.toDefers) q

lemma inPhase_grows_drain (q : Queue) : Leads (InPhase Grows) (E.drain q) :=
  leads_drain Tree.digests_grows.toDrains.inPhase (hE.inPhase Tree.defers_grows) q

end

lemma Replaces.numbered (h : E.Replaces s phase p q) : Leads (InPhase Numbered) p :=
  fun _ _ _ hrun phase ht => (h.queued hrun phase ht).imp_right (·.numbered)

include hsame

/-- A round with the second kind of pass goes like one with the first kind, if that is so for what
is next. -/
lemma Replaces.roundWith {r : Except Error Bool} (h : E.Replaces s phase p q)
    (hgrows : Leads (InPhase Grows) next) (hnumbered : Leads (InPhase Numbered) next)
    (hnext : ∀ {v v'}, E.Ready s phase v → v.queues.async = [] → v.Same v' →
      runOn next v = some (r, u) → v.Quiet u → ∃ u', runOn next' v' = some (r, u') ∧ u.Same u')
    (ht : E.Ready s phase t) (hempty : t.queues.async = []) (ht' : t.Same t')
    (hrun : runOn (E.roundWith p next) t = some (r, u)) (hquiet : t.Quiet u) :
    ∃ u', runOn (E.roundWith q next') t' = some (r, u') ∧ u.Same u' := by
  rcases runOn_bind_cases hrun with ⟨e, hdrain, -⟩ | ⟨_, t₁, hdrain, hrest⟩
  · cases (drainWithin_of_empty (q := .async) hempty hdrain).1
  obtain ⟨-, rfl⟩ := drainWithin_of_empty (q := .async) hempty hdrain
  obtain ⟨t₂, hdrain', ht₂⟩ := follows_drain hsame .async ht' hdrain
  have hpass : ∀ {r₁ v}, runOn p t₁ = some (r₁, v) → v.frame = t₁.frame →
      ∃ v', runOn q t₂ = some (r₁, v') ∧ v.Same v' := fun hrun hframe => by
    obtain ⟨v₁, hq, hv₁⟩ := h.same ht hrun hframe
    obtain ⟨v', hq', hv'⟩ := h.follows ht₂ hq
    exact ⟨v', hq', hv₁.trans hv'⟩
  rw [Engine.roundWith, Compute.runOn_bind_of_ok hdrain']
  rcases runOn_bind_cases hrest with ⟨e, hp, rfl⟩ | ⟨dirty, v, hp, hlast⟩
  · obtain ⟨u', hq, hu'⟩ := hpass hp hquiet.frame
    exact ⟨u', Compute.runOn_bind_of_error hq, hu'⟩
  · obtain ⟨hphase, hgrowsv⟩ := h.grows hp phase ht.phase
    have hqueued := (h.queued hp phase ht.phase).2
    have hrestGrows : Leads (InPhase Grows) (do
        if !dirty && (← Compute.read (·.queues.async.isEmpty)) then return true else next) := by
      refine (Leads.read _).bind fun idle => ?_
      split
      · exact .pure _
      · exact hgrows
    have hrestNumbered : Leads (InPhase Numbered) (do
        if !dirty && (← Compute.read (·.queues.async.isEmpty)) then return true else next) := by
      refine (Leads.read _).bind fun idle => ?_
      split
      · exact .pure _
      · exact hnumbered
    obtain ⟨hquiet₁, hquiet₂⟩ := hquiet.parts ht.sound hgrowsv hqueued.numbered
      (hrestGrows hlast phase hphase).2 (hrestNumbered hlast phase hphase).2
    obtain ⟨v', hq, hv'⟩ := hpass hp hquiet₁.frame
    have hvempty : v.queues.async = [] := by
      rw [hqueued.steady hquiet₁.next]
      exact hempty
    rw [Compute.runOn_bind_of_ok hq, Compute.runOn_read_bind, hv'.queues, hvempty]
    rw [Compute.runOn_read_bind, hvempty] at hlast
    cases dirty with
    | false =>
      cases hlast
      exact ⟨v', rfl, hv'⟩
    | true => exact hnext (h.ready ht hdrain hp hquiet₁.frame) hvempty hv' hlast hquiet₂

include hE

/-- The rounds of a digest go alike with both kinds of passes. -/
lemma Replaces.passesWith {n : ℕ} {r : Except Error Bool} (h : E.Replaces s phase p q)
    (ht : E.Ready s phase t) (hempty : t.queues.async = []) (ht' : t.Same t')
    (hrun : runOn (E.passesWith p n) t = some (r, u)) (hquiet : t.Quiet u) :
    ∃ u', runOn (E.passesWith q n) t' = some (r, u') ∧ u.Same u' := by
  induction n generalizing t t' with
  | zero =>
    refine h.roundWith hsame (.pure false) (.pure false) (fun _ _ hv' hlast _ => ?_) ht hempty ht'
      hrun hquiet
    cases hlast
    exact ⟨_, rfl, hv'⟩
  | succ n ih =>
    exact h.roundWith hsame (leads_passesWith h.grows (inPhase_grows_drain hE .async) n)
      (leads_passesWith h.numbered (inPhase_numbered_drain hE .async) n) ih ht hempty ht' hrun
      hquiet

omit hsame in
lemma leads_finish {R : Tree κ σ → Tree κ σ → Prop} [IsPreorder (Tree κ σ) R]
    (hR : Digests R) (x : Bool × ℕ) : Leads R (E.finish x) := by
  obtain ⟨settled, ttl⟩ := x
  refine (Leads.change fun _ => hR.leave).bind fun _ => ?_
  cases settled with
  | true => exact leads_drain hR.toDrains (hE.invoke hR) .postDigest
  | false => exact .throw _

omit hE in
lemma follows_finish (x : Bool × ℕ) : Follows Tree.Same (E.finish x) (E.finish x) := by
  obtain ⟨settled, ttl⟩ := x
  refine (follows_leave (L := .tellings) .digest).bind fun _ => ?_
  cases settled with
  | true => exact follows_drain hsame .postDigest
  | false => exact .throw _

omit hE hsame in
lemma ready_begun (ht : t.Sound) (hreads : ∀ w ∈ t.turns s, E.Reads t w) :
    E.Ready s .digest t.begun where
  fits := .inl (lastDirty_begun t)
  still w := by
    rintro ⟨x, hx, -⟩
    rw [lastDirty_begun] at hx
    cases hx
  sound := ht.of_frame (frame_begun t)
  phase := phase_begun t
  reads w hw := (hreads w (Tree.turns_of_frame (frame_begun t) s ▸ hw)).of_frame (frame_begun t)

omit hE hsame in
/-- If no task waits for an apply, a digest begins with its rounds. -/
lemma passesWith_of_loopWith {r : Except Error (Bool × ℕ)} (hempty : t.queues.apply = [])
    (hrun : runOn (E.loopWith p) t = some (r, u)) :
    (∃ e, r = .error e ∧ runOn E.opening t = some (.error e, u)) ∨
      runOn E.opening t = some (.ok (), t.begun) ∧
        ∃ r₁, runOn (E.passesWith p t.begun.config.digestTtl) t.begun = some (r₁, u) ∧
          r = r₁.map (·, t.begun.config.digestTtl) := by
  rcases runOn_bind_cases hrun with ⟨e, hopening, rfl⟩ | ⟨_, t₀, hopening, hrest⟩
  · exact .inl ⟨e, rfl, hopening⟩
  · obtain ⟨-, hdrain⟩ := drain_of_opening hopening
    have hbegun : t.begun.queues.tasks .apply = [] := by
      rw [queues_begun]
      exact hempty
    obtain ⟨-, rfl⟩ := drainWithin_of_empty hbegun hdrain
    refine .inr ⟨hopening, ?_⟩
    rw [Compute.runOn_read_bind] at hrest
    rcases runOn_bind_cases hrest with ⟨e, hpasses, rfl⟩ | ⟨settled, v, hpasses, hr⟩
    · exact ⟨_, hpasses, rfl⟩
    · cases hr
      exact ⟨_, hpasses, rfl⟩

/-- A digest goes alike with both kinds of passes. -/
theorem Replaces.digestWith {r : Except Error Unit} (h : E.Replaces s .digest p q) (ht : t.Sound)
    (hreads : ∀ w ∈ t.turns s, E.Reads t w) (hempty : ∀ q, t.queues.tasks q = [])
    (hrun : runOn (E.digestWith p) t = some (r, u)) (hquiet : t.Quiet u) :
    ∃ u', runOn (E.digestWith q) t = some (r, u') ∧ u.Same u' := by
  have hready := ready_begun ht hreads
  have hasync : t.begun.queues.async = [] := by
    rw [queues_begun]
    exact hempty .async
  have hloop : ∀ {r₁ v}, runOn (E.loopWith p) t = some (r₁, v) → t.Quiet v →
      ∃ v', runOn (E.loopWith q) t = some (r₁, v') ∧ v.Same v' := fun hloop hquiet => by
    rcases passesWith_of_loopWith (hempty .apply) hloop with
      ⟨e, rfl, hopening⟩ | ⟨hopening, r₂, hpasses, rfl⟩
    · exact ⟨_, Compute.runOn_bind_of_error hopening, .refl _⟩
    · have hquiet' : t.begun.Quiet _ := ⟨hquiet.frame.trans (frame_begun t).symm,
        hquiet.next.trans (congrArg Queues.next (queues_begun t).symm)⟩
      obtain ⟨v', hpasses', hv'⟩ := h.passesWith hE hsame hready hasync (.refl _) hpasses hquiet'
      refine ⟨v', ?_, hv'⟩
      rw [Engine.loopWith, Compute.runOn_bind_of_ok hopening, Compute.runOn_read_bind,
        Compute.runOn_bind, hpasses']
      cases r₂ <;> rfl
  rcases runOn_bind_cases hrun with ⟨e, hrun₁, rfl⟩ | ⟨x, v, hrun₁, hfinish⟩
  · obtain ⟨u', hrun', hu'⟩ := hloop hrun₁ hquiet
    exact ⟨u', Compute.runOn_bind_of_error hrun', hu'⟩
  · have hvu := leads_finish hE Tree.digests_grows x hfinish
    have hnvu := leads_finish hE Tree.digests_numbered x hfinish
    have htv : Grows t v ∧ Numbered t v := by
      rcases passesWith_of_loopWith (hempty .apply) hrun₁ with
        ⟨e, hr, -⟩ | ⟨-, r₂, hpasses, -⟩
      · cases hr
      · have hg := leads_passesWith h.grows (inPhase_grows_drain hE .async) _ hpasses
        have hn := leads_passesWith h.numbered (inPhase_numbered_drain hE .async) _ hpasses
        refine ⟨trans_of Grows (.of_frame (frame_begun t)) (hg .digest (phase_begun t)).2, ?_⟩
        have hnext := (hn .digest (phase_begun t)).2
        rw [Numbered, queues_begun] at hnext
        exact hnext
    obtain ⟨hquiet₁, -⟩ := hquiet.parts ht htv.1 htv.2 hvu hnvu
    obtain ⟨v', hrun', hv'⟩ := hloop hrun₁ hquiet₁
    obtain ⟨u', hfinish', hu'⟩ := follows_finish hsame x hv' hfinish
    exact ⟨u', by rw [Engine.digestWith, Compute.runOn_bind_of_ok hrun', hfinish'], hu'⟩

omit hE hsame in
lemma leads_passFully {R : Tree κ σ → Tree κ σ → Prop} [IsPreorder (Tree κ σ) R] (hR : Passes R)
    (s : ScopeId) (hcall : ∀ procedure how, Leads R (E.invoke procedure how)) :
    Leads R (E.passFully s) :=
  (Leads.change fun _ => hR.pass).bind fun _ => (Routine.leads_walk (fun _ =>
    (Leads.read _).bind fun ws => Routine.leads_inOrder (fun w =>
      leads_visitFully (leads_visitWatcher hR.toVisits hcall w)) ws) _ s).bind fun _ => .pure _

omit hE in
lemma follows_passFully (s : ScopeId) : Follows Tree.Same (E.passFully s) (E.passFully s) :=
  (Routine.follows_change (L := .tellings) (Tree.blind_note _)).bind fun _ =>
    (Routine.follows_walk (fun _ => (Routine.follows_read fun _ _ => rfl).bind fun ws =>
      Routine.follows_inOrder (fun w => (follows_visitWatcher hsame w).bind
        fun _ => .pure _) ws) (Nat.le_refl _) s).bind fun _ => .pure _

/-- Full passes can take the place of passes that may end early. -/
lemma replaces_fully (s : ScopeId) : E.Replaces s phase (E.pass s) (E.passFully s) where
  grows := inPhase_pass hE s
  queued := leads_pass Tree.passes_queued.inPhase (hE.inPhase Tree.passes_queued.toDefers) s
  follows := follows_passFully hsame s
  same ht hrun hframe := ht.fully_of_pass hE hrun hframe
  ready ht hdrain hrun hframe := ht.after_pass hE hdrain hrun hframe

/-- Passes that may end early can take the place of full passes. -/
lemma replaces_early (s : ScopeId) : E.Replaces s phase (E.passFully s) (E.pass s) where
  grows := leads_passFully Tree.passes_grows.inPhase s (hE.inPhase Tree.defers_grows)
  queued := leads_passFully Tree.passes_queued.inPhase s
    (hE.inPhase Tree.passes_queued.toDefers)
  follows := follows_pass hsame s
  same ht hrun hframe := ht.pass_of_fully hE hrun hframe
  ready ht hdrain hrun hframe := by
    obtain ⟨u', hrun', hu'⟩ := ht.pass_of_fully hE hrun hframe
    exact (ht.after_pass hE hdrain hrun' (hu'.frame.trans hframe)).of_same hu'.symm

end Governed

end Engine

/-! ## The two digests -/

/-- Let no procedure look at the journal, let no task wait, and let the watch functions only read.
Then a digest in which nothing is registered, removed, created or destroyed and no task is queued
comes to the same result as the digest whose passes go through all watchers, and leaves the same
tree behind; the journals, which may differ in the checks, tell of the same calls of listeners.  The
same holds the other way round. -/
theorem Host.digest_iff_digestFully (H : Host κ σ) (hblind : H.Blind) {limit : ℕ} {s : ScopeId}
    {t : Tree κ σ} (ht : t.Sound) (hreads : ∀ w ∈ t.turns s, (H.engine limit).Reads t w)
    (hempty : ∀ q, t.queues.tasks q = []) :
    (∀ r u, runOn ((H.engine limit).digest s) t = some (r, u) → t.Quiet u →
      ∃ u', runOn ((H.engine limit).digestFully s) t = some (r, u') ∧ u.Same u') ∧
    (∀ r u, runOn ((H.engine limit).digestFully s) t = some (r, u) → t.Quiet u →
      ∃ u', runOn ((H.engine limit).digest s) t = some (r, u') ∧ u.Same u') := by
  have hE := H.governed limit
  have hsame := H.alike_of_blind lasting_sameTellings hblind limit
  rw [Engine.digest_eq_digestWith]
  exact ⟨fun r u => (Engine.replaces_fully hE hsame s).digestWith hE hsame ht hreads hempty,
    fun r u => (Engine.replaces_early hE hsame s).digestWith hE hsame ht hreads hempty⟩

/-- Watches both properties, the one that is copied first, and digests; then writes that one. -/
def mirrorSetup : Program Copier Unit Unit := do
  discard <| Program.request (.watch rootId .source .copy false)
  discard <| Program.request (.watch rootId .target .ignore false)
  Program.request (.digest rootId)
  Program.compute (Store.changing (·.setOwn 0 "source" (.bool true)))

lemma copier_blind : copier.Blind := by
  intro procedure how
  have hcompute : ∀ {β : Type} (m : Compute (Store Unit) β),
      (Program.compute (κ := Copier) m).Blind := fun _ => Program.blind_request rfl
  cases procedure with
  | source => exact hcompute _
  | target => exact hcompute _
  | schedule => exact (Program.blind_request rfl).bind fun _ => .done _
  | copy => exact (hcompute _).bind fun _ => .done _
  | ignore => exact .done _

/-- The two digests of that host, after the property has been written. -/
lemma mirror_run : ∃ t, copier.run 9 mirrorSetup
      (.plant ⟨.empty, ()⟩ ⟨.empty, .empty⟩ {} false) = some (.ok (), t) ∧
    (∀ w ∈ t.turns rootId, (copier.engine 9).Reads t w) ∧ (∀ q, t.queues.tasks q = []) ∧
    (∃ u, runOn ((copier.engine 9).digest rootId) t = some (.ok (), u) ∧ t.Quiet u ∧
      u.journal.length = 31) ∧
    ∃ u, runOn ((copier.engine 9).digestFully rootId) t = some (.ok (), u) ∧
      u.journal.length = 33 := by
  generalize hx : copier.run 9 mirrorSetup _ = x
  cbv at hx
  subst hx
  refine ⟨_, rfl, ?_, ?_, ?_, ?_⟩
  · intro w hw
    have hturns : w ∈ [1, 0] := by
      cbv at hw
      exact hw
    rcases List.mem_pair.1 hturns with rfl | rfl
    · exact ⟨_, rfl, copier.reads_of_reading 8 _ rfl⟩
    · exact ⟨_, rfl, copier.reads_of_reading 8 _ rfl⟩
  · intro q
    cases q <;> rfl
  · generalize hy : runOn _ _ = y
    cbv at hy
    subst hy
    refine ⟨_, rfl, ⟨?_, ?_⟩, ?_⟩
    · cbv
    · cbv
    · cbv
  · generalize hy : runOn _ _ = y
    cbv at hy
    subst hy
    refine ⟨_, rfl, ?_⟩
    cbv

/-- A digest that ends its last pass early, and leaves what the full digest leaves. -/
theorem mirror_digest : ∃ t u u', copier.run 9 mirrorSetup
      (.plant ⟨.empty, ()⟩ ⟨.empty, .empty⟩ {} false) = some (.ok (), t) ∧
    runOn ((copier.engine 9).digest rootId) t = some (.ok (), u) ∧ t.Quiet u ∧
    runOn ((copier.engine 9).digestFully rootId) t = some (.ok (), u') ∧ u.Same u' ∧
    u.journal.length < u'.journal.length := by
  obtain ⟨t, hsetup, hreads, hempty, ⟨u, hrun, hquiet, hlength⟩, v, hrun', hlength'⟩ := mirror_run
  have hsound := Host.sound_of_run hsetup (Tree.sound_plant ..)
  obtain ⟨u', hrun'', hu'⟩ :=
    (copier.digest_iff_digestFully copier_blind hsound hreads hempty).1 _ u hrun hquiet
  cases hrun'.symm.trans hrun''
  exact ⟨t, u, v, hsetup, hrun, hquiet, hrun', hu', by omega⟩

end DataBinding
