import DataBinding.Proofs.Soundness

/-!
# Interludes

While a phase is active a host can do a lot to a tree, but it cannot digest: a digest or an apply
that is asked for is refused, and then nothing at all happens (`Engine.runOn_digest_of_busy`,
`Engine.runOn_apply_of_busy`).  So between two steps of a digest, whatever procedures run, no pass
begins.

`Tree.Interlude t u` says what is certain of such a stretch.  The tree only grows, and its journal
too.  The watcher at which the pass could end early is forgotten or stays the same, and it is
forgotten whenever a watcher was registered or something was taken away.  If the frame of a sound
tree is what it was, it stays the same.

`Tree.InPhase Q` restricts a relation to stretches that begin inside of a phase.
-/

namespace DataBinding

open Compute (Leads runOn)

variable {κ σ α : Type}

/-- Whether a step is of a kind that requests note by themselves. -/
def Step.ofRequest : Step κ → Bool
  | .queued _ _ | .called _ _ | .reported _ => true
  | _ => false

namespace Tree

variable {t u v : Tree κ σ} {s : ScopeId} {w : WatcherId} {Q : Tree κ σ → Tree κ σ → Prop}

/-- The relation holds if the first tree is in a phase, and then the second one is in it too. -/
def InPhase (Q : Tree κ σ → Tree κ σ → Prop) (t u : Tree κ σ) : Prop :=
  ∀ phase, t.phase = some phase → u.phase = some phase ∧ Q t u

instance [IsPreorder (Tree κ σ) Q] : IsPreorder (Tree κ σ) (InPhase Q) where
  refl t _ ht := ⟨ht, refl_of Q t⟩
  trans _ _ _ h₁ h₂ phase ht := by
    obtain ⟨hu, hQ₁⟩ := h₁ phase ht
    obtain ⟨hv, hQ₂⟩ := h₂ phase hu
    exact ⟨hv, trans_of Q hQ₁ hQ₂⟩

lemma InPhase.of_phase_eq (h : u.phase = t.phase) (hQ : Q t u) : InPhase Q t u :=
  fun _ ht => ⟨h.trans ht, hQ⟩

lemma phase_removeWatcher (t : Tree κ σ) (w : WatcherId) : (t.removeWatcher w).phase = t.phase := by
  rcases removeWatcher_cases t w with h | ⟨_, -, ⟨-, h⟩ | ⟨-, h⟩⟩ <;> rw [h] <;> rfl

lemma phase_tearDown (t : Tree κ σ) (s : ScopeId) : (t.tearDown s).phase = t.phase := by
  obtain ⟨_, h⟩ := tearDown_eq_scopes t s
  rw [h]

lemma journal_removeWatcher (t : Tree κ σ) (w : WatcherId) :
    (t.removeWatcher w).journal = t.journal := by
  rcases removeWatcher_cases t w with h | ⟨_, -, ⟨-, h⟩ | ⟨-, h⟩⟩ <;> rw [h] <;> rfl

lemma journal_tearDown (t : Tree κ σ) (s : ScopeId) : (t.tearDown s).journal = t.journal := by
  obtain ⟨_, h⟩ := tearDown_eq_scopes t s
  rw [h]

/-- A request notes nothing by itself, or one step of a kind that is left to requests. -/
lemma Act.journal (h : Act t u) :
    u.journal = t.journal ∨
      ∃ step : Step κ, step.ofRequest = true ∧ u.journal = step :: t.journal := by
  cases h with
  | called procedure how => exact .inr ⟨_, rfl, rfl⟩
  | reported e => exact .inr ⟨_, rfl, rfl⟩
  | enqueue _ s work => exact .inr ⟨_, rfl, rfl⟩
  | queueAsync s work =>
    obtain ⟨deferral, h⟩ := queueAsync_eq t s work
    rw [h]
    exact .inr ⟨_, rfl, rfl⟩
  | armApply =>
    obtain ⟨deferral, applyFlush, h⟩ := armApply_eq t
    rw [h]
    exact .inl rfl
  | removeWatcher w => exact .inl (journal_removeWatcher t w)
  | removeListener l =>
    unfold Tree.removeListener
    split <;> exact .inl rfl
  | _ => exact .inl rfl

lemma Tick.journal (h : Tick t u) :
    u.journal = t.journal ∨ ∃ job : JobKind, u.journal = .ran job :: t.journal := by
  rcases h.eq_or_eq with ⟨deferral, job, rfl⟩ | ⟨deferral, applyFlush, rfl⟩
  · exact .inr ⟨job, rfl⟩
  · exact .inl rfl

/-- No request but a digest or an apply begins or ends a phase. -/
lemma Act.phase (h : Act t u) : u.phase = t.phase := by
  cases h with
  | removeWatcher w => exact phase_removeWatcher t w
  | removeListener l =>
    unfold Tree.removeListener
    split <;> rfl
  | queueAsync s work =>
    obtain ⟨deferral, h⟩ := queueAsync_eq t s work
    rw [h]
    rfl
  | armApply =>
    obtain ⟨deferral, applyFlush, h⟩ := armApply_eq t
    rw [h]
  | _ => rfl

lemma Tick.phase (h : Tick t u) : u.phase = t.phase := by
  rcases h.eq_or_eq with ⟨_, _, rfl⟩ | ⟨_, _, rfl⟩ <;> rfl

end Tree

open DataBinding.Tree (InPhase)

lemma Admits.inPhase {Q : Tree κ σ → Tree κ σ → Prop} (hQ : Admits Q) : Admits (InPhase Q) where
  act h := .of_phase_eq h.phase (hQ.act h)
  beginDestroy h := .of_phase_eq rfl (hQ.beginDestroy h)
  tearDown {t u s} h hu phase ht := by
    obtain ⟨huphase, hQu⟩ := hu phase ht
    exact ⟨(Tree.phase_tearDown u s).trans huphase, hQ.tearDown h hQu⟩

lemma Defers.inPhase {Q : Tree κ σ → Tree κ σ → Prop} (hQ : Defers Q) : Defers (InPhase Q) where
  toAdmits := hQ.toAdmits.inPhase
  tick h := .of_phase_eq h.phase (hQ.tick h)

lemma phase_of_record {t u : Tree κ σ} {w : WatcherId} {new : Value} {change : Option Change}
    (h : t.record w new = some (change, u)) : u.phase = t.phase := by
  obtain ⟨_, _, rfl⟩ := Tree.eq_of_record h
  rfl

lemma Observes.inPhase {Q : Tree κ σ → Tree κ σ → Prop} (hQ : Observes Q) :
    Observes (InPhase Q) where
  toDefers := hQ.toDefers.inPhase
  setKind hw hkind := .of_phase_eq rfl (hQ.setKind hw hkind)
  record h := .of_phase_eq (phase_of_record h) (hQ.record h)

lemma Watches.inPhase {Q : Tree κ σ → Tree κ σ → Prop} (hQ : Watches Q) : Watches (InPhase Q) where
  toObserves := hQ.toObserves.inPhase
  checked := .of_phase_eq rfl hQ.checked

lemma phase_of_dequeue? {t u : Tree κ σ} {q : Queue} {task : Task κ}
    (h : t.dequeue? q = some (task, u)) : u.phase = t.phase := by
  obtain ⟨_, rfl⟩ := Tree.eq_of_dequeue? h
  rfl

lemma Drains.inPhase {Q : Tree κ σ → Tree κ σ → Prop} (hQ : Drains Q) : Drains (InPhase Q) where
  toDefers := hQ.toDefers.inPhase
  dequeue h := .of_phase_eq (phase_of_dequeue? h) (hQ.dequeue h)

lemma Visits.inPhase {Q : Tree κ σ → Tree κ σ → Prop} (hQ : Visits Q) : Visits (InPhase Q) where
  toWatches := hQ.toWatches.inPhase
  dirty := .of_phase_eq rfl hQ.dirty

lemma Passes.inPhase {Q : Tree κ σ → Tree κ σ → Prop} (hQ : Passes Q) : Passes (InPhase Q) where
  toVisits := hQ.toVisits.inPhase
  pass := .of_phase_eq rfl hQ.pass

/-! ## Digests and applies that are refused -/

namespace Engine

variable {E : Engine κ σ} {s : ScopeId} {t : Tree κ σ} {active : Phase}
  {Q : Tree κ σ → Tree κ σ → Prop} [IsPreorder (Tree κ σ) Q]

lemma runOn_enter_of_busy (hbusy : t.phase = some active) (phase : Phase) :
    runOn (enter phase) t = some (.error (.busy active), t) := by
  rw [enter, Compute.runOn_read_bind, Tree.enter_of_busy hbusy]
  rfl

/-- A digest that is refused does nothing. -/
theorem runOn_digest_of_busy (hbusy : t.phase = some active) :
    runOn (E.digest s) t = some (.error (.busy active), t) := by
  rw [digest, Compute.runOn_bind_of_error (runOn_enter_of_busy hbusy .digest)]

/-- An apply that is refused does nothing, whatever its body is. -/
theorem runOn_apply_of_busy (hbusy : t.phase = some active) (body : Routine κ σ Value) :
    runOn (E.apply body) t = some (.error (.busy active), t) := by
  rw [apply, Compute.runOn_bind_of_error (runOn_enter_of_busy hbusy .apply)]

lemma inPhase_digest (s : ScopeId) : Leads (InPhase Q) (E.digest s) := by
  intro t r u h active hactive
  rw [runOn_digest_of_busy hactive] at h
  cases h
  exact ⟨hactive, refl_of Q t⟩

lemma inPhase_apply (body : Routine κ σ Value) : Leads (InPhase Q) (E.apply body) := by
  intro t r u h active hactive
  rw [runOn_apply_of_busy hactive] at h
  cases h
  exact ⟨hactive, refl_of Q t⟩

/-- Inside of a phase the requests of an engine respect a relation if its procedures do. -/
lemma tame_inPhase (hQ : Defers Q)
    (hcall : ∀ procedure how, Leads (InPhase Q) (E.invoke procedure how)) : E.Tame (InPhase Q) where
  invoke := hcall
  digest := inPhase_digest
  apply _ _ := inPhase_apply _
  flush := leads_flush hQ.inPhase.toAdmits hQ.inPhase.tick (inPhase_digest _) (inPhase_apply _)
  advance := leads_advance hQ.inPhase.toAdmits hQ.inPhase.tick (inPhase_digest _) (inPhase_apply _)

end Engine

/-- The procedures of the engine can do no more than ask: they respect a relation that holds across
every single change, and inside of a phase every relation that requests admit. -/
structure Engine.Governed (E : Engine κ σ) : Prop where
  invoke : ∀ {R : Tree κ σ → Tree κ σ → Prop} [IsPreorder (Tree κ σ) R], Digests R →
    ∀ procedure how, Leads R (E.invoke procedure how)
  inPhase : ∀ {Q : Tree κ σ → Tree κ σ → Prop} [IsPreorder (Tree κ σ) Q], Defers Q →
    ∀ procedure how, Leads (InPhase Q) (E.invoke procedure how)

/-- The procedures of a host are programs, and programs can only ask. -/
theorem Host.governed (H : Host κ σ) (limit : ℕ) : (H.engine limit).Governed where
  invoke hR := (H.tame_of_digests hR limit).invoke
  inPhase hQ :=
    (H.tame hQ.toAdmits.inPhase (fun _ hcall => Engine.tame_inPhase hQ hcall) limit).invoke

namespace Tree

variable {t u v : Tree κ σ} {s : ScopeId} {w : WatcherId}

/-- No watcher was registered, and none and no child was taken out of a list. -/
structure Undisturbed (t u : Tree κ σ) : Prop where
  size : u.watchers.size = t.watchers.size
  watchers : ∀ s, (t.scope s).watchers ⊆ (u.scope s).watchers
  children : ∀ s, (t.scope s).children ⊆ (u.scope s).children

namespace Undisturbed

lemma trans (h₁ : Undisturbed t u) (h₂ : Undisturbed u v) : Undisturbed t v where
  size := h₂.size.trans h₁.size
  watchers s := List.Subset.trans (h₁.watchers s) (h₂.watchers s)
  children s := List.Subset.trans (h₁.children s) (h₂.children s)

lemma of_frame (h : u.frame = t.frame) : Undisturbed t u where
  size := size_watchers_of_frame h
  watchers s := by
    rw [watchers_of_frame h]
    exact List.Subset.refl _
  children s := by
    rw [children_of_frame h]
    exact List.Subset.refl _

lemma beginDestroy (t : Tree κ σ) (s : ScopeId) : Undisturbed t (t.beginDestroy s) where
  size := rfl
  watchers := scope_modifyScope_induction (P := fun q a => (t.scope q).watchers ⊆ a.watchers)
    (fun _ => List.Subset.refl _) (List.Subset.refl _)
  children := scope_modifyScope_induction (P := fun q a => (t.scope q).children ⊆ a.children)
    (fun _ => List.Subset.refl _) (List.Subset.refl _)

lemma newScope (t : Tree κ σ) (s : ScopeId) (isolated : Bool) (parent : ScopeId) :
    Undisturbed t (t.newScope s isolated parent).2 where
  size := rfl
  watchers q := by
    rcases scope_newScope_cases t s isolated parent q with ⟨data, rfl, -⟩ | hq | ⟨-, -, hq⟩
    · rw [scope_of_size_le le_rfl]
      exact List.nil_subset _
    · rw [hq]
      exact List.Subset.refl _
    · rw [hq]
      exact List.Subset.refl _
  children q := by
    rcases scope_newScope_cases t s isolated parent q with ⟨data, rfl, -⟩ | hq | ⟨-, -, hq⟩
    · rw [scope_of_size_le le_rfl]
      exact List.nil_subset _
    · rw [hq]
      exact List.Subset.refl _
    · rw [hq]
      exact List.subset_append_left _ _

end Undisturbed

/-- What is certain of a stretch between two steps of a digest. -/
structure Interlude (t u : Tree κ σ) : Prop extends Grows t u where
  dirty : u.lastDirty = none ∨ u.lastDirty = t.lastDirty ∧ Undisturbed t u
  steady : t.Sound → u.frame = t.frame → u.lastDirty = t.lastDirty
  journal : t.journal <:+ u.journal
  config : u.config = t.config

namespace Interlude

lemma trans (h₁ : Interlude t u) (h₂ : Interlude u v) : Interlude t v where
  toGrows := trans_of Grows h₁.toGrows h₂.toGrows
  dirty := by
    rcases h₂.dirty with h | ⟨h, hkept⟩
    · exact .inl h
    · rcases h₁.dirty with h' | ⟨h', hkept'⟩
      · exact .inl (h.trans h')
      · exact .inr ⟨h.trans h', hkept'.trans hkept⟩
  steady ht hframe := by
    have hu := h₁.sound ht
    have hmid := h₁.later.frame_eq h₂.later hu (h₂.sound hu) hframe
    exact (h₂.steady hu (hframe.trans hmid.symm)).trans (h₁.steady ht hmid)
  journal := h₁.journal.trans h₂.journal
  config := h₂.config.trans h₁.config

/-- A change that touches neither the mark of the digest nor the lists of watchers and children. -/
lemma of_grows (h : Grows t u) (hdirty : u.lastDirty = t.lastDirty)
    (hkept : Undisturbed t u) (hjournal : t.journal <:+ u.journal)
    (hconfig : u.config = t.config) : Interlude t u where
  toGrows := h
  dirty := .inr ⟨hdirty, hkept⟩
  steady _ _ := hdirty
  journal := hjournal
  config := hconfig

end Interlude

/-- A mark that is set in the end was set all the time, and nothing was registered or taken away. -/
lemma Interlude.of_mark (h : Interlude t u) {x : WatcherId} (hx : u.lastDirty = some x) :
    t.lastDirty = some x ∧ Undisturbed t u := by
  rcases h.dirty with hnone | ⟨hsame, hkept⟩
  · cases hnone.symm.trans hx
  · exact ⟨hsame.symm.trans hx, hkept⟩

instance : IsPreorder (Tree κ σ) Interlude where
  refl t := .of_grows (refl_of Grows t) rfl (.of_frame rfl) List.suffix_rfl rfl
  trans _ _ _ := Interlude.trans

lemma interlude_newScope (t : Tree κ σ) (s : ScopeId) (isolated : Bool) (parent : ScopeId) :
    Interlude t (t.newScope s isolated parent).2 :=
  .of_grows (Act.newScope t s isolated parent).grows rfl (.newScope t s isolated parent)
    List.suffix_rfl rfl

lemma interlude_addWatcher (t : Tree κ σ) (s : ScopeId) (kind : WatchKind κ) (byValue : Bool) :
    Interlude t (t.addWatcher s kind byValue).2 where
  toGrows := (Act.addWatcher t s kind byValue).grows
  dirty := .inl rfl
  steady _ h := by
    have hsize := size_watchers_of_frame h
    simp [addWatcher] at hsize
  journal := List.suffix_rfl
  config := rfl

lemma interlude_removeWatcher (t : Tree κ σ) (w : WatcherId) :
    Interlude t (t.removeWatcher w) := by
  have hgrows := (Act.removeWatcher t w).grows
  rcases removeWatcher_cases t w with h | ⟨watcher, hw, ⟨-, h⟩ | ⟨hmem, h⟩⟩
  · rw [h]
    exact refl_of Interlude t
  · rw [h] at hgrows ⊢
    have hkept : Undisturbed t (t.modifyWatcher w ({ · with active := false })) :=
      ⟨by simp, fun _ => List.Subset.refl _, fun _ => List.Subset.refl _⟩
    exact .of_grows hgrows rfl hkept List.suffix_rfl rfl
  · rw [h] at hgrows ⊢
    refine ⟨hgrows, .inl rfl, fun _ hframe => ?_, List.suffix_rfl, rfl⟩
    -- the watcher is listed before and not after
    have hsame := watchers_of_frame hframe watcher.scope
    have hout : w ∉ (((t.modifyWatcher w ({ · with active := false })).modifyScope watcher.scope
        (·.removeWatcher w)).scope watcher.scope).watchers := by
      rw [scope_modifyScope_self (t := t.modifyWatcher w ({ · with active := false }))
        (scope_lt_of_mem_watchers hmem)]
      simp [Scope.removeWatcher]
    exact absurd (hsame.symm ▸ hmem) hout

/-- To tear a scope down that was alive changes the frame. -/
lemma frame_tearDown_ne (hs : (t.scope s).isDestroyed = false) (h : Later (t.beginDestroy s) u) :
    (u.tearDown s).frame ≠ t.frame := by
  intro hframe
  have hsize : s < t.scopes.size := by
    by_contra hsize
    rw [scope_of_size_le (not_lt.1 hsize)] at hs
    cases hs
  have hsizeu : s < u.scopes.size := by
    refine lt_of_lt_of_le ?_ h.scopes_le
    simpa [beginDestroy] using hsize
  have hlife := congrArg Scope.life (static_scope_of_frame hframe s)
  have hgone := life_tearDown (t := u) hsizeu
  have halive : (t.scope s).life = .alive := by simpa [Scope.isDestroyed] using hs
  have hcontra : Life.gone = Life.alive := hgone.symm.trans (hlife.trans halive)
  cases hcontra

lemma interlude_tearDown (hs : (t.scope s).isDestroyed = false)
    (h : Interlude (t.beginDestroy s) u) : Interlude t (u.tearDown s) := by
  have hgrows := defers_grows.tearDown hs h.toGrows
  have hne := frame_tearDown_ne hs h.later
  obtain ⟨v, hv, heq⟩ := tearDown_eq u s
  have hfields : (u.tearDown s).lastDirty = none ∧ (u.tearDown s).journal = u.journal ∧
      (u.tearDown s).config = u.config := by
    rw [heq]
    rcases hv with rfl | ⟨p, rfl⟩ <;> exact ⟨rfl, rfl, rfl⟩
  obtain ⟨hdirty, hjournal, hconfig⟩ := hfields
  refine ⟨hgrows, .inl hdirty, fun _ hframe => absurd hframe hne, ?_, hconfig.trans h.config⟩
  rw [hjournal]
  exact h.journal

lemma Act.interlude (h : Act t u) : Interlude t u := by
  have hgrows := h.grows
  cases h with
  | enqueue => exact .of_grows hgrows rfl (.of_frame rfl) (List.suffix_cons _ _) rfl
  | queueAsync s work =>
    obtain ⟨deferral, h⟩ := queueAsync_eq t s work
    rw [h] at hgrows ⊢
    exact .of_grows hgrows rfl (.of_frame rfl) (List.suffix_cons _ _) rfl
  | armApply =>
    obtain ⟨deferral, applyFlush, h⟩ := armApply_eq t
    rw [h] at hgrows ⊢
    exact .of_grows hgrows rfl (.of_frame rfl) List.suffix_rfl rfl
  | newScope s isolated parent => exact interlude_newScope t s isolated parent
  | addWatcher s kind byValue => exact interlude_addWatcher t s kind byValue
  | removeWatcher w => exact interlude_removeWatcher t w
  | addListener s event procedure =>
    exact .of_grows hgrows rfl (.of_frame (frame_addListener t s event procedure)) List.suffix_rfl
      rfl
  | removeListener l =>
    have hkept : Undisturbed t (t.removeListener l) := .of_frame (frame_removeListener t l)
    unfold Tree.removeListener at hgrows hkept ⊢
    split
    · next hl =>
      rw [hl] at hgrows hkept
      exact .of_grows hgrows rfl hkept List.suffix_rfl rfl
    · exact refl_of Interlude t
  | called => exact .of_grows hgrows rfl (.of_frame rfl) (List.suffix_cons _ _) rfl
  | reported => exact .of_grows hgrows rfl (.of_frame rfl) (List.suffix_cons _ _) rfl
  | _ => exact .of_grows hgrows rfl (.of_frame rfl) List.suffix_rfl rfl

lemma Tick.interlude (h : Tick t u) : Interlude t u := by
  have hgrows := h.grows
  rcases h.eq_or_eq with ⟨_, _, rfl⟩ | ⟨_, _, rfl⟩
  · exact .of_grows hgrows rfl (.of_frame rfl) (List.suffix_cons _ _) rfl
  · exact .of_grows hgrows rfl (.of_frame rfl) List.suffix_rfl rfl

lemma interlude_record {new : Value} {change : Option Change}
    (h : t.record w new = some (change, u)) : Interlude t u := by
  have hgrows : Grows t u := .of_frame (frame_record h)
  rcases record_cases h with ⟨-, rfl⟩ | ⟨c, frozen, store, -, rfl⟩
  · exact refl_of Interlude u
  · exact .of_grows hgrows rfl (.of_frame (frame_record h)) List.suffix_rfl rfl

lemma interlude_dequeue? {q : Queue} {task : Task κ} (h : t.dequeue? q = some (task, u)) :
    Interlude t u := by
  have hgrows : Grows t u := .of_frame (frame_of_dequeue? h)
  obtain ⟨_, rfl⟩ := eq_of_dequeue? h
  exact .of_grows hgrows rfl (.of_frame rfl) (List.suffix_cons _ _) rfl

/-- Requests, checks and reactions are interludes. -/
lemma watches_interlude : Watches (Interlude (κ := κ) (σ := σ)) where
  act h := h.interlude
  beginDestroy h :=
    .of_grows (defers_grows.beginDestroy h) rfl (.beginDestroy _ _) List.suffix_rfl rfl
  tearDown := interlude_tearDown
  tick h := h.interlude
  checked := .of_grows (.of_frame rfl) rfl (.of_frame rfl) (List.suffix_cons _ _) rfl
  setKind hw hkind := .of_grows (.of_frame (frame_setKind hw hkind)) rfl
    (.of_frame (frame_setKind hw hkind)) List.suffix_rfl rfl
  record := interlude_record

/-- Tasks are interludes. -/
lemma drains_interlude : Drains (Interlude (κ := κ) (σ := σ)) where
  toDefers := watches_interlude.toDefers
  dequeue := interlude_dequeue?

end Tree

namespace Engine

open DataBinding.Tree (Grows Interlude)

variable {E : Engine κ σ} (hE : E.Governed)

include hE

lemma inPhase_visitWatcher (w : WatcherId) : Leads (InPhase Grows) (E.visitWatcher w) :=
  leads_visitWatcher Tree.passes_grows.inPhase.toVisits.surveys (hE.inPhase Tree.defers_grows) w

lemma interlude_check (w : WatcherId) : Leads (InPhase Interlude) (E.check w) :=
  leads_check Tree.watches_interlude.inPhase.toObserves.notices
    Tree.watches_interlude.inPhase.checked (hE.inPhase Tree.watches_interlude.toDefers) w

lemma interlude_notify (w : WatcherId) (change : Change) :
    Leads (InPhase Interlude) (E.contained (E.notify w change)) :=
  leads_contained Tree.watches_interlude.inPhase.toAdmits.grants
    (leads_notify Tree.watches_interlude.inPhase.toObserves.notices
      (hE.inPhase Tree.watches_interlude.toDefers) w change)

end Engine

end DataBinding
