import DataBinding.Proofs.Checks
import DataBinding.Proofs.Registrations

/-!
# Every tree is sound

A planted tree is sound, and whatever a host does with a sound tree leads to a later sound tree
(`Host.sound_of_run`, `Host.later_of_run`).  So soundness is no condition on how a tree is used.
-/

namespace DataBinding

variable {κ σ α : Type}

namespace Tree

variable {t u v : Tree κ σ} {w : WatcherId}

/-- The second tree is later than the first, and sound if that is. -/
structure Grows (t u : Tree κ σ) : Prop where
  later : Later t u
  sound : t.Sound → u.Sound

lemma Grows.of_frame (h : u.frame = t.frame) : Grows t u :=
  ⟨.of_frame h, fun ht => ht.of_frame h⟩

instance : IsPreorder (Tree κ σ) Grows where
  refl _ := .of_frame rfl
  trans _ _ _ h₁ h₂ := ⟨h₁.later.trans h₂.later, fun h => h₂.sound (h₁.sound h)⟩

/-! ## Records and memories -/

lemma frame_setKind {watcher : Watcher κ} {kind : WatchKind κ} (hw : t.watcher? w = some watcher)
    (hkind : kind.forget = watcher.kind.forget) : (t.setKind w kind).frame = t.frame := by
  refine frame_modifyWatcher fun watcher' hw' => ?_
  cases hw.symm.trans hw'
  simp only [Watcher.static, hkind]

/-- What a record changes: the record of the watcher and the store. -/
lemma record_cases {new : Value} {change : Option Change} (h : t.record w new = some (change, u)) :
    change = none ∧ u = t ∨
      ∃ c frozen store, change = some c ∧
        u = { t.modifyWatcher w ({ · with last := some frozen }) with store } := by
  unfold record at h
  cases hw : t.watcher? w with
  | none =>
    rw [hw] at h
    cases h
    exact .inl ⟨rfl, rfl⟩
  | some watcher =>
    rw [hw] at h
    dsimp only at h
    split at h
    · cases h
      exact .inl ⟨rfl, rfl⟩
    · obtain ⟨frozen, -, h⟩ := Option.map_eq_some_iff.1 h
      cases h
      exact .inr ⟨_, frozen, _, rfl, rfl⟩

/-- What it means that a change is recorded: the last record does not agree with the value, which
is the record now.  The old value is what the last record comes to, or the value itself if there is
none. -/
lemma record_some_cases {new : Value} {change : Change}
    (h : t.record w new = some (some change, u)) :
    ∃ watcher frozen, t.watcher? w = some watcher ∧
      watcher.last.any (t.store.heap.agrees · new) = false ∧
      t.store.heap.recorded? watcher.byValue new = some frozen ∧
      u.watcher? w = some { watcher with last := some frozen } ∧ change.new = new ∧
      (change.old, u.store.heap) =
        watcher.last.elim (new, t.store.heap) (·.thaw t.store.heap) := by
  unfold record at h
  cases hw : t.watcher? w with
  | none =>
    rw [hw] at h
    cases h
  | some watcher =>
    rw [hw] at h
    dsimp only at h
    split at h
    · cases h
    · next hdiffers =>
      obtain ⟨frozen, hfrozen, h⟩ := Option.map_eq_some_iff.1 h
      cases h
      refine ⟨watcher, frozen, rfl, by simpa using hdiffers, hfrozen, ?_, rfl, ?_⟩
      · have hset := watcher?_modifyWatcher_self (t := t) (w := w)
          (f := ({ · with last := some frozen }))
        rw [hw] at hset
        exact hset
      · cases watcher.last <;> rfl

/-- A record changes the watchers and the store at most. -/
lemma eq_of_record {new : Value} {change : Option Change} (h : t.record w new = some (change, u)) :
    ∃ watchers store, u = { t with watchers, store } := by
  rcases record_cases h with ⟨-, rfl⟩ | ⟨c, frozen, store, -, rfl⟩ <;> exact ⟨_, _, rfl⟩

lemma frame_record {new : Value} {change : Option Change}
    (h : t.record w new = some (change, u)) : u.frame = t.frame := by
  rcases record_cases h with ⟨-, rfl⟩ | ⟨c, frozen, store, -, rfl⟩
  · rfl
  · exact frame_modifyWatcher (t := t) (f := ({ · with last := some frozen })) fun _ _ => rfl

/-! ## Requests and digests -/

lemma Act.grows (h : Act t u) : Grows t u := by
  cases h.registers with
  | newScope s isolated parent =>
    exact ⟨later_newScope t s isolated parent, fun h => h.newScope s isolated parent⟩
  | addWatcher s kind byValue =>
    exact ⟨later_addWatcher t s kind byValue, fun h => h.addWatcher s kind byValue⟩
  | removeWatcher w => exact ⟨later_removeWatcher t w, fun h => h.removeWatcher w⟩
  | addListener s event procedure => exact .of_frame (frame_addListener t s event procedure)
  | removeListener l => exact .of_frame (frame_removeListener t l)
  | nothing hscopes hwatchers => exact .of_frame (by rw [frame, frame, hscopes, hwatchers])

lemma Tick.grows (h : Tick t u) : Grows t u := by
  rcases h.eq_or_eq with ⟨_, _, rfl⟩ | ⟨_, _, rfl⟩ <;> exact .of_frame rfl

lemma cancelApply_frame (t : Tree κ σ) : t.cancelApply.frame = t.frame := by
  obtain ⟨_, _, h⟩ := cancelApply_eq t
  rw [h]
  rfl

lemma frame_of_dequeue? {q : Queue} {task : Task κ} (h : t.dequeue? q = some (task, u)) :
    u.frame = t.frame := by
  obtain ⟨_, rfl⟩ := eq_of_dequeue? h
  rfl

lemma frame_of_enter {phase : Phase} (h : t.enter phase = .ok u) : u.frame = t.frame := by
  obtain rfl := eq_of_enter h
  rfl

lemma defers_grows : Defers (Grows (κ := κ) (σ := σ)) where
  act h := h.grows
  beginDestroy h := ⟨later_beginDestroy h, fun ht => ht.beginDestroy _⟩
  tearDown {t u s} h hu := by
    have hbegin := later_beginDestroy h
    exact ⟨hbegin.trans (hu.later.trans (later_tearDown u s)),
      fun ht => (hu.sound (ht.beginDestroy s)).tearDown s⟩
  tick h := h.grows

lemma watches_grows : Watches (Grows (κ := κ) (σ := σ)) where
  toDefers := defers_grows
  checked := .of_frame rfl
  setKind hw hkind := .of_frame (frame_setKind hw hkind)
  record h := .of_frame (frame_record h)

lemma passes_grows : Passes (Grows (κ := κ) (σ := σ)) where
  toWatches := watches_grows
  dirty := .of_frame rfl
  pass := .of_frame rfl

lemma digests_grows : Digests (Grows (κ := κ) (σ := σ)) where
  toPasses := passes_grows
  enter h := .of_frame (frame_of_enter h)
  leave := .of_frame rfl
  start {t} := .of_frame (cancelApply_frame { t with lastDirty := none })
  dequeue h := .of_frame (frame_of_dequeue? h)

end Tree

/-! ## Runs -/

variable {H : Host κ σ} {limit : ℕ} {p : Program κ σ α} {t u : Tree κ σ} {r : Except Error α}

lemma Host.grows_of_run (h : H.run limit p t = some (r, u)) : t.Grows u :=
  Engine.leads_execute Tree.defers_grows.toAdmits.allows
    (H.tame_of_digests Tree.digests_grows limit) p h

/-- A host leaves a sound tree sound. -/
theorem Host.sound_of_run (h : H.run limit p t = some (r, u)) (ht : t.Sound) : u.Sound :=
  (grows_of_run h).sound ht

/-- A host leads to later trees only: a watcher or a scope that was taken away does not come
back. -/
theorem Host.later_of_run (h : H.run limit p t = some (r, u)) : t.Later u :=
  (grows_of_run h).later

end DataBinding
