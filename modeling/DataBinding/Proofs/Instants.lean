import DataBinding.Proofs.CallSites
import DataBinding.Proofs.Literals

/-!
# One-time watches from instant to instant

A one-time watch decides to end in three steps that lie apart: its listener is told of a value, a
task is queued if that value has settled, and the task looks again at what was reported last.  In
between anything can run, other tasks and other digests among it.

An instant of a run is the tree at that time, together with what the calls of the engine that have
not returned hold on to: the phase of a digest or an apply, or the telling of a one-time watch
(`Instant`).  `Instant.Move w` says which instant can be next as long as nobody takes the watch `w`
back.  Whatever has nothing to do with the watch is one move, `Tree.Bypasses`.

On a trail of such moves (`Instant.Trail`) the watch is never behind what it reported last: while
that is settled and the watch is registered still, the task that ends the watch waits, or the host
is being told of the value at this moment (`Instant.Awaits`).  So once the queue is empty the watch
is gone just if that is settled (`Instant.Trail.gone_iff`).  A watch that is gone reports nothing
any more (`Instant.Trail.silent`).
-/

namespace DataBinding

variable {κ σ : Type}

/-! ## One-time watches -/

/-- What a one-time watch goes by: whether a literal is watched, the value that was reported last,
whether the watch is registered still, and what is recorded of the watched value. -/
structure OneTime where
  literal : Bool
  reported : Value
  active : Bool
  last : Option Frozen

/-- The one-time watch that a watcher is, if it is one. -/
def Watcher.oneTime? (watcher : Watcher κ) : Option OneTime :=
  match watcher.kind with
  | .oneTime e _ reported => some ⟨e.isLiteral, reported, watcher.active, watcher.last⟩
  | _ => none

lemma Watcher.oneTime?_eq_none_iff {watcher : Watcher κ} :
    watcher.oneTime? = none ↔ watcher.kind.isOneTime = false := by
  obtain ⟨s, kind, byValue, active, last⟩ := watcher
  cases kind <;> simp [oneTime?, WatchKind.isOneTime]

/-- The watch is registered just if the watcher is. -/
lemma Watcher.active_of_oneTime? {watcher : Watcher κ} {x : OneTime}
    (h : watcher.oneTime? = some x) : watcher.active = x.active := by
  obtain ⟨s, kind, byValue, active, last⟩ := watcher
  cases kind with
  | oneTime =>
    cases h
    rfl
  | _ => cases h

namespace Heap

variable {h k : Heap}

/-- Whether a value has settled depends on what it holds itself. -/
lemma SameAt.settled_eq {v : Value} (hv : h.SameAt k v) (literal : Bool) :
    h.settled literal v = k.settled literal v := by
  cases literal with
  | false => cases v <;> rfl
  | true =>
    cases v with
    | array a => rw [settled, settled, hv.items_eq]
    | object o => rw [settled, settled, record, record, hv.object_eq]
    | _ => rfl

end Heap

namespace Tree

variable {t u v : Tree κ σ} {w : WatcherId}

/-- The one-time watch that a watcher of the tree is, if it is one. -/
def oneTime? (t : Tree κ σ) (w : WatcherId) : Option OneTime :=
  (t.watcher? w).bind Watcher.oneTime?

lemma oneTime?_of_watcher? {watcher : Watcher κ} (hw : t.watcher? w = some watcher) :
    t.oneTime? w = watcher.oneTime? := by
  rw [oneTime?, hw, Option.bind_some]

lemma exists_watcher?_of_oneTime? {x : OneTime} (h : t.oneTime? w = some x) :
    ∃ watcher, t.watcher? w = some watcher ∧ watcher.oneTime? = some x :=
  Option.bind_eq_some_iff.1 h

lemma isActive_of_oneTime? {x : OneTime} (h : t.oneTime? w = some x) : t.isActive w = x.active := by
  obtain ⟨watcher, hw, hx⟩ := exists_watcher?_of_oneTime? h
  rw [isActive, hw]
  exact Watcher.active_of_oneTime? hx

lemma oneTime?_removeWatcher_self {x : OneTime} (h : t.oneTime? w = some x) :
    (t.removeWatcher w).oneTime? w = some { x with active := false } := by
  obtain ⟨⟨s, kind, byValue, active, last⟩, hw, hx⟩ := exists_watcher?_of_oneTime? h
  rw [oneTime?, watcher?_removeWatcher_self, hw, Option.map_some, Option.bind_some]
  cases kind with
  | oneTime =>
    cases hx
    rfl
  | _ => cases hx

/-- A task that is to end a watch takes it away just if the value reported last has settled. -/
lemma settle_cases (t : Tree κ σ) (w : WatcherId) :
    (∃ x, t.oneTime? w = some x ∧ t.store.heap.settled x.literal x.reported = true ∧
        t.settle w = t.removeWatcher w) ∨
      t.settle w = t ∧
        ∀ x, t.oneTime? w = some x → t.store.heap.settled x.literal x.reported = false := by
  unfold settle
  split
  · next e listener reported hw =>
    have hx := oneTime?_of_watcher? hw
    split
    · next hsettled => exact .inl ⟨_, hx, hsettled, rfl⟩
    · next hsettled =>
      refine .inr ⟨rfl, fun x hx' => ?_⟩
      cases hx.symm.trans hx'
      exact Bool.eq_false_of_not_eq_true hsettled
  · next hother =>
    refine .inr ⟨rfl, fun x hx => ?_⟩
    obtain ⟨⟨s, kind, byValue, active, last⟩, hw, hwx⟩ := exists_watcher?_of_oneTime? hx
    cases kind with
    | oneTime => exact absurd hw (hother _ _ _ _ _ _ _)
    | _ => cases hwx

lemma settle_eq (t : Tree κ σ) (w : WatcherId) :
    ∃ scopes watchers lastDirty, t.settle w = { t with scopes, watchers, lastDirty } := by
  rcases settle_cases t w with ⟨_, -, -, h⟩ | ⟨h, -⟩
  · obtain ⟨scopes, watchers, lastDirty, heq, -⟩ := removeWatcher_eq t w
    exact ⟨scopes, watchers, lastDirty, h.trans heq⟩
  · exact ⟨t.scopes, t.watchers, t.lastDirty, h⟩

/-! ## What passes a one-time watch by -/

/-- The change passes the watcher by as a one-time watch: it is the same one as before or none
still, no phase begins or ends, and no task that is to end the watch is taken. -/
structure Bypasses (w : WatcherId) (t u : Tree κ σ) : Prop where
  phase : u.phase = t.phase
  kept : ∀ {watcher}, t.watcher? w = some watcher →
    ∃ watcher', u.watcher? w = some watcher' ∧ watcher'.oneTime? = watcher.oneTime?
  waiting : ∀ {task}, task ∈ t.queues.postDigest → task.work = .settle w →
    task ∈ u.queues.postDigest
  calls : t.calls <:+ u.calls

variable {q : WatcherId}

namespace Bypasses

lemma trans (h : Bypasses w t u) (h' : Bypasses w u v) : Bypasses w t v where
  phase := h'.phase.trans h.phase
  kept hw := by
    obtain ⟨watcher', hw', hsame⟩ := h.kept hw
    obtain ⟨watcher'', hw'', hsame'⟩ := h'.kept hw'
    exact ⟨watcher'', hw'', hsame'.trans hsame⟩
  waiting htask hwork := h'.waiting (h.waiting htask hwork) hwork
  calls := h.calls.trans h'.calls

/-- A change that leaves watchers and phase as they are. -/
lemma of_same (hwatchers : u.watchers = t.watchers) (hphase : u.phase = t.phase)
    (hqueue : t.queues.postDigest ⊆ u.queues.postDigest) (hcalls : t.calls <:+ u.calls) :
    Bypasses w t u where
  phase := hphase
  kept {watcher} hw := ⟨watcher, by rw [watcher?, hwatchers]; exact hw, rfl⟩
  waiting htask _ := hqueue htask
  calls := hcalls

/-- A change that leaves the queue for the end of a digest as it is, too, and calls nothing. -/
lemma of_eq (hwatchers : u.watchers = t.watchers) (hphase : u.phase = t.phase)
    (hqueue : u.queues.postDigest = t.queues.postDigest) (hcalls : u.calls = t.calls) :
    Bypasses w t u :=
  .of_same hwatchers hphase (hqueue ▸ List.Subset.refl _) (hcalls ▸ List.suffix_rfl)

lemma refl (t : Tree κ σ) : Bypasses w t t := .of_eq rfl rfl rfl rfl

/-- A watcher changes in something that a one-time watch does not go by, or it is another one. -/
lemma modifyWatcher {f : Watcher κ → Watcher κ}
    (hf : q = w → ∀ watcher, t.watcher? w = some watcher →
      (f watcher).oneTime? = watcher.oneTime?) :
    Bypasses w t (t.modifyWatcher q f) where
  phase := rfl
  kept {watcher} hw := by
    by_cases hwq : w = q
    · subst hwq
      exact ⟨f watcher, by rw [watcher?_modifyWatcher_self, hw]; rfl, hf rfl watcher hw⟩
    · exact ⟨watcher, (watcher?_modifyWatcher_of_ne hwq f).trans hw, rfl⟩
  waiting htask _ := htask
  calls := List.suffix_rfl

/-- A one-time watch that was registered is so still. -/
lemma isActive (h : Bypasses w t u) {watcher : Watcher κ} (hw : u.watcher? w = some watcher)
    (hkind : watcher.kind.isOneTime = true) (hactive : t.isActive w = true) :
    u.isActive w = true := by
  obtain ⟨before, hbefore, hon⟩ := (Option.any_eq_true ..).1 hactive
  obtain ⟨after, hafter, hsame⟩ := h.kept hbefore
  obtain rfl := Option.some.inj (hw.symm.trans hafter)
  cases hx : watcher.oneTime? with
  | none => cases hkind.symm.trans (Watcher.oneTime?_eq_none_iff.1 hx)
  | some x =>
    rw [isActive_of_oneTime? ((oneTime?_of_watcher? hw).trans hx),
      ← Watcher.active_of_oneTime? (hsame.symm.trans hx)]
    exact hon

lemma oneTime?_eq (h : Bypasses w t u) {x : OneTime} (hx : t.oneTime? w = some x) :
    u.oneTime? w = some x := by
  obtain ⟨watcher, hw, hwx⟩ := exists_watcher?_of_oneTime? hx
  obtain ⟨watcher', hw', hsame⟩ := h.kept hw
  rw [oneTime?_of_watcher? hw', hsame, hwx]

end Bypasses

/-- A watcher that is taken away stays the one-time watch that it was, unless it is one and was
registered. -/
lemma bypasses_removeWatcher (h : q = w → ∀ watcher, t.watcher? w = some watcher →
    watcher.oneTime? = none ∨ watcher.active = false) : Bypasses w t (t.removeWatcher q) where
  phase := by
    obtain ⟨_, _, _, h, -⟩ := removeWatcher_eq t q
    rw [h]
  kept {watcher} hw := by
    by_cases hwq : w = q
    · subst hwq
      refine ⟨{ watcher with active := false }, ?_, ?_⟩
      · rw [watcher?_removeWatcher_self, hw, Option.map_some]
      · obtain ⟨s, kind, byValue, active, last⟩ := watcher
        cases kind with
        | oneTime =>
          rcases h rfl _ hw with hnone | rfl
          · cases hnone
          · rfl
        | _ => rfl
    · exact ⟨watcher, (watcher?_removeWatcher_of_ne t hwq).trans hw, rfl⟩
  waiting {task} htask _ := by
    obtain ⟨_, _, _, h, -⟩ := removeWatcher_eq t q
    rw [h]
    exact htask
  calls := by
    rw [calls_removeWatcher]

lemma bypasses_removeWatcher_of_ne (t : Tree κ σ) (h : q ≠ w) :
    Bypasses w t (t.removeWatcher q) := bypasses_removeWatcher fun heq => absurd heq h

lemma bypasses_addWatcher (t : Tree κ σ) (s : ScopeId) (kind : WatchKind κ) (byValue : Bool) :
    Bypasses w t (t.addWatcher s kind byValue).2 where
  phase := rfl
  kept {watcher} hw :=
    ⟨watcher, (watcher?_addWatcher_of_lt kind byValue (lt_size_of_watcher? hw)).trans hw, rfl⟩
  waiting htask _ := htask
  calls := List.suffix_rfl

lemma bypasses_addMembers (t : Tree κ σ) (s : ScopeId) (g : GroupId) (index : ℕ)
    (watches : List κ) : Bypasses w t (t.addMembers s g index watches).2 := by
  induction watches generalizing t index with
  | nil => exact .refl t
  | cons watch rest ih => exact (bypasses_addWatcher t s _ false).trans (ih _ _)

lemma bypasses_enqueue (t : Tree κ σ) (q : Queue) (s : ScopeId) (work : Work κ) :
    Bypasses w t (t.enqueue q s work) := by
  refine .of_same rfl rfl ?_ List.suffix_rfl
  cases q with
  | postDigest => exact List.subset_append_left _ _
  | async | apply => exact List.Subset.refl _

lemma bypasses_queueAsync (t : Tree κ σ) (s : ScopeId) (work : Work κ) :
    Bypasses w t (t.queueAsync s work) := by
  obtain ⟨_, h⟩ := queueAsync_eq t s work
  rw [h]
  exact (bypasses_enqueue t .async s work).trans (.of_eq rfl rfl rfl rfl)

lemma bypasses_armApply (t : Tree κ σ) : Bypasses w t t.armApply := by
  obtain ⟨_, _, h⟩ := armApply_eq t
  rw [h]
  exact .of_eq rfl rfl rfl rfl

/-- An edit that does not take the watcher away passes it by. -/
lemma Edit.bypasses (h : t.Edit u) (hactive : t.isActive w = true → u.isActive w = true) :
    Bypasses w t u := by
  cases h with
  | formGroup s watches listener =>
    have hgroup : Bypasses w t (t.addGroup listener watches.length).2 :=
      .of_eq rfl rfl rfl rfl
    exact hgroup.trans (bypasses_addMembers _ s _ 0 watches)
  | queueAsync s => exact bypasses_queueAsync t s _
  | queueApply s => exact (bypasses_enqueue t .apply s _).trans (bypasses_armApply _)
  | postpone s => exact bypasses_enqueue t .postDigest s _
  | armApply => exact bypasses_armApply t
  | addWatcher s byValue => exact bypasses_addWatcher t s _ byValue
  | removeWatcher q =>
    refine bypasses_removeWatcher fun heq watcher hw => .inr ?_
    subst heq
    by_contra hne
    have hon : t.isActive q = true := by simpa [isActive, hw] using hne
    exact Bool.false_ne_true ((isActive_removeWatcher_self t q).symm.trans (hactive hon))
  | removeListener l =>
    obtain ⟨_, _, h⟩ := removeListener_eq t l
    rw [h]
    exact .of_eq rfl rfl rfl rfl
  | _ => exact .of_eq rfl rfl rfl rfl

lemma Tick.bypasses (h : Tick t u) : Bypasses w t u := by
  rcases h.eq_or_eq with ⟨_, _, rfl⟩ | ⟨_, _, rfl⟩ <;>
    exact .of_eq rfl rfl rfl rfl

lemma bypasses_note (t : Tree κ σ) (step : Step κ) : Bypasses w t (t.note step) :=
  .of_same rfl rfl (List.Subset.refl _) ((List.suffix_cons step t.journal).filterMap _)

lemma bypasses_beginDestroy (t : Tree κ σ) (s : ScopeId) : Bypasses w t (t.beginDestroy s) :=
  .of_eq rfl rfl rfl rfl

lemma bypasses_mark (t : Tree κ σ) (q : WatcherId) :
    Bypasses w t { t with lastDirty := some q } :=
  .of_eq rfl rfl rfl rfl

lemma bypasses_tearDown (t : Tree κ σ) (s : ScopeId) : Bypasses w t (t.tearDown s) := by
  obtain ⟨_, h⟩ := tearDown_eq_scopes t s
  rw [h]
  exact .of_eq rfl rfl rfl rfl

/-- The other tasks stay in the queue for the end of a digest. -/
lemma mem_postDigest_of_dequeue? {q : Queue} {task other : Task κ}
    (h : t.dequeue? q = some (task, u)) (hother : other ∈ t.queues.postDigest)
    (hne : other ≠ task) : other ∈ u.queues.postDigest := by
  by_cases hq : q = .postDigest
  · subst hq
    have hmem : other ∈ task :: u.queues.postDigest := tasks_of_dequeue? h ▸ hother
    exact List.mem_of_ne_of_mem hne hmem
  · have hsame : u.queues.postDigest = t.queues.postDigest :=
      tasks_of_dequeue?_of_ne h (Ne.symm hq)
    rw [hsame]
    exact hother

/-- A task that is taken passes a one-time watch by unless it is to end that watch. -/
lemma bypasses_of_dequeue? {q : Queue} {task : Task κ} (h : t.dequeue? q = some (task, u))
    (hwork : task.work ≠ .settle w) : Bypasses w t u where
  phase := by
    obtain ⟨_, rfl⟩ := eq_of_dequeue? h
    rfl
  kept {watcher} hw := by
    obtain ⟨_, rfl⟩ := eq_of_dequeue? h
    exact ⟨watcher, hw, rfl⟩
  waiting {other} hother hsettle :=
    mem_postDigest_of_dequeue? h hother fun heq => hwork (heq ▸ hsettle)
  calls := by
    rw [calls_of_dequeue? h]

/-- What is recorded of a watched value passes one-time watches of other values by. -/
lemma bypasses_record {new : Value} {change : Option DataBinding.Change}
    (h : t.record q new = some (change, u))
    (hother : q = w → ∀ watcher, t.watcher? w = some watcher → watcher.kind.isOneTime = false) :
    Bypasses w t u := by
  rcases record_cases h with ⟨-, rfl⟩ | ⟨c, frozen, store, -, rfl⟩
  · exact .refl _
  · have hmodify : Bypasses w t (t.modifyWatcher q ({ · with last := some frozen })) := by
      refine .modifyWatcher fun heq watcher hw => ?_
      have hkind := hother heq watcher hw
      rw [Watcher.oneTime?_eq_none_iff.2 hkind]
      exact Watcher.oneTime?_eq_none_iff.2 hkind
    exact hmodify.trans (.of_eq rfl rfl rfl rfl)

/-- What a watcher keeps for itself passes other watchers by, and what is no one-time watch becomes
none by it. -/
lemma bypasses_setKind {kind : WatchKind κ}
    (hother : q = w → ∀ watcher, t.watcher? w = some watcher → watcher.kind.isOneTime = false)
    (hkind : q = w → kind.isOneTime = false) : Bypasses w t (t.setKind q kind) := by
  refine .modifyWatcher fun heq watcher hw => ?_
  rw [Watcher.oneTime?_eq_none_iff.2 (hother heq watcher hw)]
  exact Watcher.oneTime?_eq_none_iff.2 (hkind heq)

end Tree

/-! ## Tellings -/

namespace Telling

variable {τ : Telling κ} {t u : Tree κ σ}

/-- Whether the telling is that of a literal. -/
def literal (τ : Telling κ) : Bool :=
  match τ.watcher.kind with
  | .oneTime e _ _ => e.isLiteral
  | _ => false

/-- Whether the value that is told has settled, as things are in that heap. -/
def settledIn (τ : Telling κ) (h : Heap) : Bool := h.settled τ.literal τ.change.new

/-- The tree when the listener of the watch is called. -/
def begun (τ : Telling κ) (t : Tree κ σ) : Tree κ σ :=
  (τ.prepared { t with lastDirty := some τ.id }).noteCall τ.call?

/-- The tree at the end of the telling of a one-time watch: a task waits for the end of the digest
if the value has settled. -/
def finished (τ : Telling κ) (t : Tree κ σ) : Tree κ σ :=
  if τ.settledIn t.store.heap then t.enqueue .postDigest τ.watcher.scope (.settle τ.id) else t

lemma finished_of_settled (h : τ.settledIn t.store.heap = true) :
    τ.finished t = t.enqueue .postDigest τ.watcher.scope (.settle τ.id) := if_pos h

/-- The end of a telling passes one-time watches by. -/
lemma bypasses_finished (τ : Telling κ) (t : Tree κ σ) {w : WatcherId} :
    t.Bypasses w (τ.finished t) := by
  unfold finished
  split
  · exact Tree.bypasses_enqueue t .postDigest _ _
  · exact .refl t

/-- A change is told on behalf of the watcher that it was recorded for. -/
lemma OfRecord.exists_watcher? (h : τ.OfRecord t u) : ∃ watcher, t.watcher? τ.id = some watcher ∧
    τ.watcher.kind = watcher.kind ∧ τ.watcher.active = watcher.active := by
  obtain ⟨new, hnew⟩ := h.record
  obtain ⟨watcher, frozen, ht, -, -, hu, -⟩ := Tree.record_some_cases hnew
  rw [Option.some.inj (h.watcher.symm.trans hu)]
  exact ⟨watcher, ht, rfl, rfl⟩

lemma OfRecord.isActive_eq (h : τ.OfRecord t u) : t.isActive τ.id = τ.watcher.active := by
  obtain ⟨watcher, ht, -, hactive⟩ := h.exists_watcher?
  rw [Tree.isActive, ht, hactive]
  rfl

/-- The telling of a one-time watch: the watch takes note of the value, and its listener is called
with it. -/
lemma exists_begun (hkind : τ.watcher.kind.isOneTime = true) : ∃ e listener reported,
    τ.watcher.kind = .oneTime e listener reported ∧
      τ.call? = some (listener, .changed τ.watcher.scope τ.change) ∧
      ∀ u : Tree κ σ, τ.begun u = (Tree.setKind { u with lastDirty := some τ.id } τ.id
        (.oneTime e listener τ.change.new)).note
          (.called listener (.changed τ.watcher.scope τ.change)) := by
  obtain ⟨w, ⟨s, kind, byValue, active, last⟩, change, seen, told⟩ := τ
  cases kind with
  | oneTime e listener reported => exact ⟨e, listener, reported, rfl, rfl, fun _ => rfl⟩
  | _ => cases hkind

/-- When its listener is called, the watch goes by the value that is told. -/
lemma oneTime?_begun (hw : u.watcher? τ.id = some τ.watcher)
    (hkind : τ.watcher.kind.isOneTime = true) : (τ.begun u).oneTime? τ.id =
      some ⟨τ.literal, τ.change.new, τ.watcher.active, τ.watcher.last⟩ := by
  obtain ⟨e, listener, reported, hkind, -, hbegun⟩ := exists_begun (σ := σ) hkind
  have hset := Tree.watcher?_modifyWatcher_self (t := { u with lastDirty := some τ.id })
    (w := τ.id) ({ · with kind := .oneTime e listener τ.change.new })
  rw [show Tree.watcher? { u with lastDirty := some τ.id } τ.id = some τ.watcher from hw] at hset
  rw [Tree.oneTime?_of_watcher? ((congrArg (Tree.watcher? · τ.id) (hbegun u)).trans hset), literal,
    hkind]
  rfl

/-- What is told to a listener is noted as a call of it, and no phase begins or ends. -/
lemma begun_of_record (hrecord : τ.OfRecord t u) (hkind : τ.watcher.kind.isOneTime = true) :
    (τ.begun u).phase = t.phase ∧ ∃ listener,
      τ.call? = some (listener, .changed τ.watcher.scope τ.change) ∧
      (τ.begun u).calls = (listener, .changed τ.watcher.scope τ.change) :: t.calls := by
  obtain ⟨e, listener, reported, -, hcall, hbegun⟩ := exists_begun (σ := σ) hkind
  obtain ⟨new, hnew⟩ := hrecord.record
  obtain ⟨watchers, store, hu⟩ := Tree.eq_of_record hnew
  rw [hbegun]
  refine ⟨?_, listener, hcall, ?_⟩ <;> rw [hu] <;> rfl

end Telling

/-! ## Instants -/

/-- What a call of the engine that has not returned holds on to: the phase of a digest or an apply,
or the telling of the one-time watch. -/
inductive Hold (κ : Type) where
  | phase (phase : Phase)
  | telling (τ : Telling κ)

/-- An instant of a run: what the calls that have not returned hold on to, the last call first, and
the tree. -/
structure Instant (κ σ : Type) where
  holds : List (Hold κ)
  tree : Tree κ σ

namespace Instant

/-- What can be the next instant while nobody takes the one-time watch `w` back, and what the watch
tells its listener on the way there. -/
inductive Move (w : WatcherId) : Instant κ σ → Option (Telling κ) → Instant κ σ → Prop
  | bypass {holds : List (Hold κ)} {t u : Tree κ σ} (h : t.Bypasses w u) :
    Move w ⟨holds, t⟩ none ⟨holds, u⟩
  | settle {holds : List (Hold κ)} {t u : Tree κ σ} {q : Queue} {task : Task κ}
    (h : t.dequeue? q = some (task, u)) (hwork : task.work = .settle w) :
    Move w ⟨holds, t⟩ none ⟨holds, u.settle w⟩
  | enter {holds : List (Hold κ)} {t : Tree κ σ} (hidle : t.phase = none) (phase : Phase) :
    Move w ⟨holds, t⟩ none ⟨.phase phase :: holds, t.entering phase⟩
  | leave {holds : List (Hold κ)} {t : Tree κ σ} {phase : Phase} :
    Move w ⟨.phase phase :: holds, t⟩ none ⟨holds, t.leave phase⟩
  | tell {holds : List (Hold κ)} {t u : Tree κ σ} {τ : Telling κ} (hid : τ.id = w)
    (hactive : t.isActive w = true) (hrecord : τ.OfRecord t u)
    (hkind : τ.watcher.kind.isOneTime = true) :
    Move w ⟨.phase .digest :: holds, t⟩ (some τ) ⟨.telling τ :: .phase .digest :: holds, τ.begun u⟩
  | told {holds : List (Hold κ)} {t : Tree κ σ} {τ : Telling κ} :
    Move w ⟨.telling τ :: holds, t⟩ none ⟨holds, τ.finished t⟩

/-- A beat of a trail: what the watch tells, if anything, and the heap then. -/
structure Beat (κ : Type) where
  told : Option (Telling κ)
  heap : Heap

/-- Instants one after another while nobody takes the watch back, and a beat for each move. -/
inductive Trail (w : WatcherId) : Instant κ σ → List (Beat κ) → Instant κ σ → Prop
  | none (m : Instant κ σ) : Trail w m [] m
  | more {m m' m'' : Instant κ σ} {bs : List (Beat κ)} {told : Option (Telling κ)}
    (htrail : Trail w m bs m') (hmove : Move w m' told m'') :
    Trail w m (bs ++ [⟨told, m''.tree.store.heap⟩]) m''

variable {w : WatcherId} {m m' m'' : Instant κ σ} {bs bs' : List (Beat κ)}
  {told : Option (Telling κ)} {τ : Telling κ}

lemma Move.trail (h : Move w m told m') : Trail w m [⟨told, m'.tree.store.heap⟩] m' :=
  .more (.none m) h

lemma Trail.trans (h : Trail w m bs m') (h' : Trail w m' bs' m'') :
    Trail w m (bs ++ bs') m'' := by
  induction h' with
  | none =>
    rw [List.append_nil]
    exact h
  | more _ hmove ih =>
    rw [← List.append_assoc]
    exact .more ih hmove

/-! ## What is held on to -/

/-- What can be held on to in a tree of that phase: at most one call is in a phase, and if the watch
tells its listener it does so in the phase of a digest. -/
inductive Orderly : List (Hold κ) → Option Phase → Prop
  | idle : Orderly [] none
  | busy (phase : Phase) : Orderly [.phase phase] (some phase)
  | telling (τ : Telling κ) : Orderly [.telling τ, .phase .digest] (some .digest)

namespace Orderly

variable {holds : List (Hold κ)} {phase : Phase} {current : Option Phase}

lemma of_idle (h : Orderly holds none) : holds = [] := by
  cases h
  rfl

lemma of_nil (h : Orderly ([] : List (Hold κ)) current) : current = none := by
  cases h
  rfl

lemma of_phase (h : Orderly (.phase phase :: holds) current) :
    holds = [] ∧ current = some phase := by
  cases h
  exact ⟨rfl, rfl⟩

lemma of_telling (h : Orderly (.telling τ :: holds) current) :
    holds = [.phase .digest] ∧ current = some .digest := by
  cases h
  exact ⟨rfl, rfl⟩

end Orderly

/-- Every move keeps what is held on to in order. -/
lemma Move.orderly (h : Move w m told m') (hm : Orderly m.holds m.tree.phase) :
    Orderly m'.holds m'.tree.phase := by
  cases h with
  | bypass h => exact h.phase ▸ hm
  | @settle holds t u q task h =>
    obtain ⟨_, rfl⟩ := Tree.eq_of_dequeue? h
    obtain ⟨_, _, _, hsettle⟩ := Tree.settle_eq _ w
    rw [hsettle]
    exact hm
  | enter hidle phase =>
    rw [hidle] at hm
    obtain rfl := hm.of_idle
    exact .busy phase
  | leave =>
    obtain ⟨rfl, -⟩ := hm.of_phase
    exact .idle
  | tell _ _ hrecord hkind =>
    obtain ⟨hphase, -⟩ := Telling.begun_of_record hrecord hkind
    obtain ⟨rfl, hdigest⟩ := hm.of_phase
    rw [hphase, hdigest]
    exact .telling _
  | @told holds t τ =>
    obtain ⟨rfl, hdigest⟩ := hm.of_telling
    rw [(τ.bypasses_finished t (w := w)).phase, hdigest]
    exact .busy .digest

lemma Trail.orderly (h : Trail w m bs m') (hm : Orderly m.holds m.tree.phase) :
    Orderly m'.holds m'.tree.phase := by
  induction h with
  | none => exact hm
  | more _ hmove ih => exact hmove.orderly ih

/-! ## What is still to be done -/

/-- The end of the watch is due: the listener is being told of the value, or a task waits that is to
end the watch. -/
def Due (w : WatcherId) (m : Instant κ σ) (τ : Telling κ) : Prop :=
  .telling τ ∈ m.holds ∨ ∃ task ∈ m.tree.queues.postDigest, task.work = .settle w

/-- The watch has told its listener of that value last.  While the value is settled and the watch is
registered still, the end of the watch is due; and if the watch is gone the value is settled. -/
structure Awaits (w : WatcherId) (m : Instant κ σ) (τ : Telling κ) : Prop where
  watch : ∃ active last, m.tree.oneTime? w = some ⟨τ.literal, τ.change.new, active, last⟩
  current : ∀ τ', .telling τ' ∈ m.holds → τ' = τ ∧ τ.id = w
  due : m.tree.isActive w = true → τ.settledIn m.tree.store.heap = true → Due w m τ
  gone : m.tree.isActive w = false → τ.settledIn m.tree.store.heap = true

/-- A value that is told is awaited from then on. -/
lemma Move.awaits_told (h : Move w m (some τ) m') (hm : Orderly m.holds m.tree.phase) :
    Awaits w m' τ := by
  cases h with
  | @tell holds t u _ hid hactive hrecord hkind =>
    subst hid
    have hx := Telling.oneTime?_begun hrecord.watcher hkind
    have hon : τ.watcher.active = true := hrecord.isActive_eq.symm.trans hactive
    refine ⟨⟨_, _, hx⟩, fun τ' hτ' => ?_, fun _ _ => .inl (.head _), fun hgone => ?_⟩
    · obtain ⟨rfl, -⟩ := hm.of_phase
      exact ⟨by simpa using hτ', rfl⟩
    · rw [Tree.isActive_of_oneTime? hx] at hgone
      exact absurd (hon.symm.trans hgone) (by decide)

/-- The watch still awaits what it told last where it goes by the same, the value stays as it is,
and its end stays due. -/
lemma Awaits.of_same (hm : Awaits w m τ)
    (hx : ∀ {x}, m.tree.oneTime? w = some x → m'.tree.oneTime? w = some x)
    (hheld : ∀ τ', .telling τ' ∈ m'.holds → .telling τ' ∈ m.holds)
    (hsame : m.tree.store.heap.SameAt m'.tree.store.heap τ.change.new)
    (hdue : τ.settledIn m'.tree.store.heap = true → Due w m τ → Due w m' τ) :
    Awaits w m' τ := by
  obtain ⟨active, last, hwatch⟩ := hm.watch
  have hactive : m'.tree.isActive w = m.tree.isActive w :=
    (Tree.isActive_of_oneTime? (hx hwatch)).trans (Tree.isActive_of_oneTime? hwatch).symm
  have hsettled : τ.settledIn m.tree.store.heap = τ.settledIn m'.tree.store.heap :=
    hsame.settled_eq τ.literal
  refine ⟨⟨active, last, hx hwatch⟩, fun τ' hτ' => hm.current τ' (hheld τ' hτ'),
    fun hon hyes => ?_, fun hoff => ?_⟩
  · exact hdue hyes (hm.due (hactive ▸ hon) (hsettled.trans hyes))
  · exact hsettled.symm.trans (hm.gone (hactive ▸ hoff))

/-- What is due stays so where no telling ends and no task is taken. -/
lemma Due.mono (h : Due w m τ) (hheld : .telling τ ∈ m.holds → .telling τ ∈ m'.holds)
    (htasks : ∀ {task}, task ∈ m.tree.queues.postDigest → task.work = .settle w →
      task ∈ m'.tree.queues.postDigest) : Due w m' τ :=
  h.imp hheld fun ⟨task, htask, hwork⟩ => ⟨task, htasks htask hwork, hwork⟩

/-- A task that is to end the watch is taken, and ends it if what it reported last has settled. -/
lemma Awaits.settle {holds : List (Hold κ)} {t u : Tree κ σ} {q : Queue} {task : Task κ}
    (hm : Awaits w ⟨holds, t⟩ τ) (hnext : t.dequeue? q = some (task, u))
    (hsame : t.store.heap.SameAt (u.settle w).store.heap τ.change.new) :
    Awaits w ⟨holds, u.settle w⟩ τ := by
  have hwatch : ∀ {x}, t.oneTime? w = some x → u.oneTime? w = some x := by
    obtain ⟨_, rfl⟩ := Tree.eq_of_dequeue? hnext
    exact fun hx => hx
  have hheap : (u.settle w).store.heap = u.store.heap := by
    obtain ⟨_, _, _, h⟩ := Tree.settle_eq u w
    rw [h]
  obtain ⟨active, last, hx⟩ := hm.watch
  rcases Tree.settle_cases u w with ⟨x, hx', hyes, hremoved⟩ | ⟨hkept, hno⟩
  · -- the watch is taken away
    cases (hwatch hx).symm.trans hx'
    have hgone := Tree.oneTime?_removeWatcher_self hx'
    rw [← hremoved] at hgone
    refine ⟨⟨false, last, hgone⟩, hm.current, fun hon => ?_, fun _ => ?_⟩
    · cases (Tree.isActive_of_oneTime? hgone).symm.trans hon
    · exact (congrArg τ.settledIn hheap).trans hyes
  · -- the value reverted, and the watch stays
    have hsettled := hno _ (hwatch hx)
    refine hm.of_same (fun {x} hx => ?_) (fun _ h => h) hsame fun hyes _ => ?_
    · change (u.settle w).oneTime? w = some x
      rw [hkept]
      exact hwatch hx
    · cases hsettled.symm.trans ((congrArg τ.settledIn hheap).symm.trans hyes)

/-- The telling of the watch ends, and the end of the watch is due if the value has settled. -/
lemma Awaits.finish {holds : List (Hold κ)} {t : Tree κ σ} {τ' : Telling κ}
    (hm : Awaits w ⟨.telling τ' :: holds, t⟩ τ)
    (hsame : t.store.heap.SameAt (τ'.finished t).store.heap τ.change.new) :
    Awaits w ⟨holds, τ'.finished t⟩ τ := by
  obtain ⟨rfl, hid⟩ := hm.current τ' (.head _)
  refine hm.of_same (τ'.bypasses_finished t).oneTime?_eq (fun _ h => .tail _ h) hsame
    fun hyes _ => ?_
  have hsettled : τ'.settledIn t.store.heap = true := (hsame.settled_eq _).trans hyes
  refine .inr ⟨⟨t.queues.next, τ'.watcher.scope, .settle τ'.id⟩, ?_, by rw [hid]⟩
  change _ ∈ (τ'.finished t).queues.postDigest
  rw [Telling.finished_of_settled hsettled]
  exact List.mem_append_right _ (.head _)

/-- From one instant to the next the watch still awaits what it told last, if it tells nothing else
and the value stays as it is. -/
lemma Move.awaits (h : Move w m none m') (hm : Awaits w m τ)
    (hsame : m.tree.store.heap.SameAt m'.tree.store.heap τ.change.new) : Awaits w m' τ := by
  cases h with
  | @bypass holds t u h =>
    exact hm.of_same h.oneTime?_eq (fun _ h => h) hsame fun _ hdue =>
      hdue.mono (fun h => h) h.waiting
  | settle hnext hwork => exact hm.settle hnext hsame
  | enter hidle phase =>
    refine hm.of_same (fun hx => hx) (fun τ' hτ' => ?_) hsame fun _ hdue =>
      hdue.mono (.tail _) fun htask _ => htask
    simpa using hτ'
  | leave =>
    refine hm.of_same (fun hx => hx) (fun τ' hτ' => .tail _ hτ') hsame fun _ hdue =>
      hdue.mono (fun h => ?_) fun htask _ => htask
    simpa using h
  | told => exact hm.finish hsame

/-! ## Trails -/

/-- What the watch tells its listener on a trail. -/
def reports (bs : List (Beat κ)) : List (Telling κ) := bs.filterMap Beat.told

/-- Nobody modifies in place a value that the watch has reported: each stays as it was when the
listener was called with it. -/
def Unmodified (bs : List (Beat κ)) : Prop :=
  bs.Pairwise fun b b' => ∀ τ, b.told = some τ → b.heap.SameAt b'.heap τ.change.new

lemma reports_append (bs bs' : List (Beat κ)) : reports (bs ++ bs') = reports bs ++ reports bs' :=
  List.filterMap_append

lemma reports_concat_none (bs : List (Beat κ)) (h : Heap) :
    reports (bs ++ [⟨none, h⟩]) = reports bs := by
  rw [reports_append]
  exact List.append_nil _

lemma reports_concat_some (bs : List (Beat κ)) (τ : Telling κ) (h : Heap) :
    reports (bs ++ [⟨some τ, h⟩]) = reports bs ++ [τ] := reports_append bs _

/-- What is told on a move is told to the listener of the watch. -/
lemma Move.calls (h : Move w m told m') :
    m.tree.calls <:+ m'.tree.calls ∧
      ∀ τ, told = some τ → ∃ call, τ.call? = some call ∧ call ∈ m'.tree.calls := by
  cases h with
  | bypass h => exact ⟨h.calls, by simp⟩
  | @settle holds t u q task h =>
    obtain ⟨_, _, _, hsettle⟩ := Tree.settle_eq u w
    rw [hsettle]
    exact ⟨(Tree.calls_of_dequeue? h ▸ List.suffix_rfl : t.calls <:+ u.calls), by simp⟩
  | enter => exact ⟨List.suffix_rfl, by simp⟩
  | leave => exact ⟨List.suffix_rfl, by simp⟩
  | @tell holds t u τ hid hactive hrecord hkind =>
    obtain ⟨-, listener, hcall, hcalls⟩ := Telling.begun_of_record hrecord hkind
    refine ⟨hcalls ▸ List.suffix_cons _ _, fun τ' hτ' => ?_⟩
    cases hτ'
    exact ⟨_, hcall, hcalls ▸ List.mem_cons_self⟩
  | @told holds t τ => exact ⟨(τ.bypasses_finished t (w := w)).calls, by simp⟩

/-- Whatever the watch reports on a trail is a call that the journal notes. -/
lemma Trail.mem_calls (h : Trail w m bs m') :
    ∀ τ ∈ reports bs, ∃ call, τ.call? = some call ∧ call ∈ m'.tree.calls := by
  induction h with
  | none => simp [reports]
  | @more m' m'' bs told _ hmove ih =>
    obtain ⟨hsuffix, htold⟩ := hmove.calls
    intro τ hτ
    rw [reports_append, List.mem_append] at hτ
    rcases hτ with hτ | hτ
    · obtain ⟨call, hcall, hmem⟩ := ih τ hτ
      exact ⟨call, hcall, hsuffix.subset hmem⟩
    · refine htold τ ?_
      simpa [reports] using hτ

/-- On a trail on which nobody modifies what the watch reports, the watch awaits what it reported
last. -/
lemma Trail.awaits (h : Trail w m bs m') (hm : Orderly m.holds m.tree.phase)
    (hkept : Unmodified bs) : ∀ τ ∈ (reports bs).getLast?, Awaits w m' τ := by
  -- the value is still what it was when it was told
  suffices ∀ τ ∈ (reports bs).getLast?, Awaits w m' τ ∧ ∃ b ∈ bs, b.told = some τ ∧
      ∀ k, b.heap.SameAt k τ.change.new → m'.tree.store.heap.SameAt k τ.change.new from
    fun τ hτ => (this τ hτ).1
  induction h with
  | none => simp [reports]
  | @more m' m'' bs told htrail hmove ih =>
    intro τ hτ
    cases told with
    | some τ' =>
      rw [reports_concat_some, List.getLast?_concat] at hτ
      cases hτ
      exact ⟨hmove.awaits_told (htrail.orderly hm), _, List.mem_append_right _ (.head _), rfl,
        fun _ h => h⟩
    | none =>
      rw [reports_concat_none] at hτ
      obtain ⟨hbs, -, hlast⟩ := List.pairwise_append.1 hkept
      obtain ⟨hawaits, b, hb, htold, hheap⟩ := ih hbs τ hτ
      have hsame := hlast b hb _ (.head _) τ htold
      exact ⟨hmove.awaits hawaits (hheap _ hsame), b, List.mem_append_left _ hb, htold,
        fun k hk => hsame.trans_left hk⟩

/-- Where nothing is told, the watch goes by what was reported and recorded before, and it is not
registered again. -/
lemma Move.quiet (h : Move w m none m') {x : OneTime} (hx : m.tree.oneTime? w = some x) :
    ∃ active, m'.tree.oneTime? w = some { x with active } ∧ (active = true → x.active = true) := by
  cases h with
  | bypass h => exact ⟨x.active, h.oneTime?_eq hx, fun h => h⟩
  | @settle holds t u q task h =>
    have hu : u.oneTime? w = some x := by
      obtain ⟨_, rfl⟩ := Tree.eq_of_dequeue? h
      exact hx
    rcases Tree.settle_cases u w with ⟨y, hy, -, hremoved⟩ | ⟨hkept, -⟩
    · refine ⟨false, ?_, by simp⟩
      rw [hremoved]
      exact Tree.oneTime?_removeWatcher_self hu
    · refine ⟨x.active, ?_, fun h => h⟩
      rw [hkept]
      exact hu
  | enter => exact ⟨x.active, hx, fun h => h⟩
  | leave => exact ⟨x.active, hx, fun h => h⟩
  | @told holds t τ => exact ⟨x.active, (τ.bypasses_finished t).oneTime?_eq hx, fun h => h⟩

/-- On a trail on which nothing is reported, the watch goes by what was reported and recorded
before. -/
lemma Trail.quiet (h : Trail w m bs m') {x : OneTime} (hx : m.tree.oneTime? w = some x)
    (hnone : reports bs = []) : ∃ active, m'.tree.oneTime? w = some { x with active } ∧
      (active = true → x.active = true) := by
  induction h with
  | none => exact ⟨x.active, hx, fun h => h⟩
  | @more m' m'' bs told _ hmove ih =>
    cases told with
    | some τ =>
      rw [reports_concat_some] at hnone
      simp at hnone
    | none =>
      rw [reports_concat_none] at hnone
      obtain ⟨active, hx', hon⟩ := ih hnone
      obtain ⟨active', hx'', hon'⟩ := hmove.quiet hx'
      exact ⟨active', hx'', fun h => hon (hon' h)⟩

/-- A one-time watch that is gone reports nothing any more. -/
lemma Trail.silent (h : Trail w m bs m') {x : OneTime} (hx : m.tree.oneTime? w = some x)
    (hgone : x.active = false) : reports bs = [] := by
  induction h with
  | none => rfl
  | @more m' m'' bs told htrail hmove ih =>
    cases told with
    | none => exact (reports_concat_none bs _).trans ih
    | some τ =>
      -- a watch tells something only while it is registered
      obtain ⟨active, hx', hon⟩ := htrail.quiet hx ih
      cases hmove with
      | tell _ hactive =>
        rw [Tree.isActive_of_oneTime? hx'] at hactive
        cases hgone.symm.trans (hon hactive)

/-- Once the queue is empty and nothing is held on to, the watch is gone just if what it reported
last has settled. -/
theorem Trail.gone_iff {u : Tree κ σ} (h : Trail w m bs ⟨[], u⟩)
    (hm : Orderly m.holds m.tree.phase) (hkept : Unmodified bs)
    (hqueue : u.queues.postDigest = []) {τ : Telling κ} (hτ : τ ∈ (reports bs).getLast?) :
    u.isActive w = false ↔ τ.settledIn u.store.heap = true := by
  have hawaits := h.awaits hm hkept τ hτ
  refine ⟨hawaits.gone, fun hsettled => Bool.eq_false_of_not_eq_true fun hactive => ?_⟩
  rcases hawaits.due hactive hsettled with hheld | ⟨task, htask, -⟩
  · cases hheld
  · change task ∈ u.queues.postDigest at htask
    rw [hqueue] at htask
    cases htask

end Instant

end DataBinding
