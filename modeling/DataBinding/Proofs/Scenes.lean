import DataBinding.Proofs.Soundness

/-!
# The scenes of a run

Whatever a procedure of the host is called for, the call of the engine that it is made in has not
returned: a pass has watchers of a scope still to visit and one that is being checked or whose
listener is told of a change, an event has listeners still to hear it, a task is at work.  A scene
of a run is the tree at one moment together with what all calls that have not returned are in the
middle of (`Scene`).

`Scene.Next` says which scene can be next, and what is done on the way there: a procedure is called,
on behalf of a watcher, a listener or a task, or a watcher that does not call one directly takes
note of a change.  A story goes from scene to scene (`Scene.Story`) and collects all that is done.
The calls in it are those that the journal notes (`Scene.Story.calls`).
-/

namespace DataBinding

variable {κ σ : Type}

/-! ## What is done -/

/-- The procedure that computes what is watched, if it is one. -/
def WatchKind.watch? : WatchKind κ → Option κ
  | .procedure watch _ | .member watch _ _ | .collection watch _ _ => some watch
  | .expression .. | .constant .. | .oneTime .. | .inputs .. => none

/-- The listener of a watcher is told of a change: the watcher at that time, the change, and the
heap when the value was seen and when the change is told. -/
structure Telling (κ : Type) where
  id : WatcherId
  watcher : Watcher κ
  change : Change
  seen : Heap
  told : Heap

namespace Telling

/-- What the host is told of, and which of its procedures.  The change of a member goes to its group
instead, and that of a collection watch is the count of the changes in the collection. -/
def report? (τ : Telling κ) : Option (κ × Change) :=
  match τ.watcher.kind with
  | .procedure _ listener | .expression _ listener | .inputs _ listener _ | .constant _ listener
  | .oneTime _ listener _ => some (listener, τ.change)
  | .member .. => none
  | .collection _ listener state => some (listener, ⟨state.latest, (state.oldValue τ.told).1⟩)

/-- The call that tells the host. -/
def call? (τ : Telling κ) : Option (κ × Invocation) :=
  τ.report?.map fun (listener, change) => (listener, .changed τ.watcher.scope change)

/-- The tree when the host is told: the watcher has taken note of what it reports. -/
def prepared (τ : Telling κ) (t : Tree κ σ) : Tree κ σ :=
  match τ.watcher.kind with
  | .oneTime e listener _ => t.setKind τ.id (.oneTime e listener τ.change.new)
  | .collection watch listener state => (t.reportCollection τ.id state watch listener).2
  | _ => t

end Telling

/-- What a task calls, if it calls a procedure. -/
inductive Task.Calls (task : Task κ) (t : Tree κ σ) : κ → Invocation → Prop
  | procedure {body : κ} (hwork : task.work = .procedure body) :
    Calls task t body (.task task.scope)
  | group {g : GroupId} {group : Group κ} {change : Change} (hwork : task.work = .group g)
    (hgroup : t.groups[g]? = some group) : Calls task t group.listener (.changed task.scope change)
  | announcement {a : ℕ} {announcement : Announcement κ} {change : Change}
    (hwork : task.work = .announcement a) (hannouncement : t.announcements[a]? = some announcement)
    (hcancelled : announcement.cancelled = false) :
    Calls task t announcement.listener (.changed task.scope change)

/-- What is done: the procedure of a watcher computes what is watched, the listener of a watcher is
told of a change, a listener hears an event, a task calls a procedure, the body of an apply runs. -/
inductive Deed (κ : Type) where
  | watch (w : WatcherId) (watcher : Watcher κ) (procedure : κ)
  | tell (τ : Telling κ)
  | hear (l : ListenerId) (listener : Listener κ) (e : EventId) (args : List Value)
  | work (task : Task κ) (procedure : κ) (how : Invocation)
  | body (procedure : κ) (s : ScopeId)

/-- The call of a procedure that is made. -/
def Deed.call? : Deed κ → Option (κ × Invocation)
  | .watch _ watcher procedure => some (procedure, .watch watcher.scope)
  | .tell τ => τ.call?
  | .hear _ listener e args => some (listener.procedure, .event e args)
  | .work _ procedure how => some (procedure, how)
  | .body procedure s => some (procedure, .body s)

/-! ## Trees between deeds -/

namespace Tree

/-- A single change of a tree at which no procedure is called, no task is taken and no change of a
watched value is recorded. -/
inductive Drift : Tree κ σ → Tree κ σ → Prop
  | act {t u : Tree κ σ} (h : t.Act u) (hcalls : u.calls = t.calls) : Drift t u
  | tick {t u : Tree κ σ} (h : t.Tick u) : Drift t u
  | beginDestroy {t : Tree κ σ} {s : ScopeId} (h : (t.scope s).isDestroyed = false) :
    Drift t (t.beginDestroy s)
  | tearDown (t : Tree κ σ) (s : ScopeId) : Drift t (t.tearDown s)
  | setKind {t : Tree κ σ} {w : WatcherId} {watcher : Watcher κ} {kind : WatchKind κ}
    (hw : t.watcher? w = some watcher) (hkind : kind.forget = watcher.kind.forget) :
    Drift t (t.setKind w kind)
  | pass (t : Tree κ σ) (s : ScopeId) : Drift t (t.note (.pass s))
  | enter {t u : Tree κ σ} {phase : Phase} (h : t.enter phase = .ok u) : Drift t u
  | leave (t : Tree κ σ) (phase : Phase) : Drift t (t.leave phase)
  | start (t : Tree κ σ) : Drift t { t with lastDirty := none }.cancelApply

variable {t u : Tree κ σ}

/-- Notes a call, if there is one. -/
def noteCall (t : Tree κ σ) : Option (κ × Invocation) → Tree κ σ
  | some (procedure, how) => t.note (.called procedure how)
  | none => t

lemma calls_noteCall (t : Tree κ σ) (call : Option (κ × Invocation)) :
    (t.noteCall call).calls = call.toList ++ t.calls := by
  cases call <;> rfl

lemma frame_noteCall (t : Tree κ σ) (call : Option (κ × Invocation)) :
    (t.noteCall call).frame = t.frame := by
  cases call <;> rfl

lemma calls_of_dequeue? {q : Queue} {task : Task κ} (h : t.dequeue? q = some (task, u)) :
    u.calls = t.calls := by
  obtain ⟨_, rfl⟩ := eq_of_dequeue? h
  rfl

namespace Drift

lemma calls (h : t.Drift u) : u.calls = t.calls := by
  cases h with
  | act _ hcalls => exact hcalls
  | tick h => rcases h.eq_or_eq with ⟨_, _, rfl⟩ | ⟨_, _, rfl⟩ <;> rfl
  | tearDown s =>
    unfold Tree.tearDown
    dsimp only
    split <;> rfl
  | enter h =>
    obtain rfl := eq_of_enter h
    rfl
  | start =>
    obtain ⟨_, _, h⟩ := cancelApply_eq { t with lastDirty := none }
    rw [h]
    rfl
  | _ => rfl

lemma grows (h : t.Drift u) : Grows t u := by
  cases h with
  | act h _ => exact h.grows
  | tick h => exact h.grows
  | beginDestroy h => exact ⟨later_beginDestroy h, fun ht => ht.beginDestroy _⟩
  | tearDown s => exact ⟨later_tearDown t s, fun ht => ht.tearDown s⟩
  | setKind hw hkind => exact .of_frame (frame_setKind hw hkind)
  | pass => exact .of_frame rfl
  | enter h => exact .of_frame (frame_of_enter h)
  | leave => exact .of_frame rfl
  | start => exact .of_frame (cancelApply_frame _)

end Drift

end Tree

namespace Telling

variable {τ : Telling κ} {t : Tree κ σ}

lemma calls_prepared (τ : Telling κ) (t : Tree κ σ) : (τ.prepared t).calls = t.calls := by
  unfold prepared
  split <;> rfl

lemma frame_prepared (hw : t.watcher? τ.id = some τ.watcher) : (τ.prepared t).frame = t.frame := by
  unfold prepared
  split
  · next hkind => exact Tree.frame_setKind hw (hkind ▸ rfl)
  · next hkind => exact Tree.frame_setKind hw (hkind ▸ rfl)
  · rfl

end Telling

/-! ## Scenes -/

/-- What a call of the engine that has not returned is in the middle of: the visit of the watchers
of a scope, with those that remain; the check of a watcher, or the reaction to a change; the
delivery of an event in a scope, with the listeners that remain; the work of a task. -/
inductive Frame (κ : Type) where
  | visiting (s : ScopeId) (rest : List WatcherId)
  | checking (w : WatcherId)
  | telling (w : WatcherId)
  | hearing (e : EventId) (s : ScopeId) (rest : List ListenerId)
  | working (task : Task κ)

/-- A moment of a run: what the calls that have not returned are in the middle of, the last call
first, and the tree. -/
structure Scene (κ σ : Type) where
  frames : List (Frame κ)
  tree : Tree κ σ

namespace Scene

/-- What can be the next scene, and what is done on the way to it. -/
inductive Next : Scene κ σ → List (Deed κ) → Scene κ σ → Prop
  | drift {frames : List (Frame κ)} {t u : Tree κ σ} (h : t.Drift u) :
    Next ⟨frames, t⟩ [] ⟨frames, u⟩
  | visit {frames : List (Frame κ)} {t : Tree κ σ} (s : ScopeId) :
    Next ⟨frames, t⟩ [] ⟨.visiting s (t.scope s).watchers :: frames, t⟩
  | skip {frames : List (Frame κ)} {t : Tree κ σ} {s : ScopeId} {w : WatcherId}
    {rest : List WatcherId} (h : t.isActive w = false) :
    Next ⟨.visiting s (w :: rest) :: frames, t⟩ [] ⟨.visiting s rest :: frames, t⟩
  | check {frames : List (Frame κ)} {t : Tree κ σ} {s : ScopeId} {w : WatcherId}
    {rest : List WatcherId} (h : t.isActive w = true) :
    Next ⟨.visiting s (w :: rest) :: frames, t⟩ []
      ⟨.checking w :: .visiting s rest :: frames, t.note (.checked w)⟩
  | watch {frames : List (Frame κ)} {t : Tree κ σ} {w : WatcherId} {watcher : Watcher κ}
    {procedure : κ} (hw : t.watcher? w = some watcher)
    (hwatch : watcher.kind.watch? = some procedure) :
    Next ⟨.checking w :: frames, t⟩ [.watch w watcher procedure]
      ⟨.checking w :: frames, t.note (.called procedure (.watch watcher.scope))⟩
  | checked {frames : List (Frame κ)} {t : Tree κ σ} {w : WatcherId} :
    Next ⟨.checking w :: frames, t⟩ [] ⟨frames, t⟩
  | tell {frames : List (Frame κ)} {t u : Tree κ σ} {new : Value} {τ : Telling κ}
    (hrecord : t.record τ.id new = some (some τ.change, u))
    (hw : u.watcher? τ.id = some τ.watcher) (hseen : τ.seen = t.store.heap)
    (htold : τ.told = u.store.heap) :
    Next ⟨.checking τ.id :: frames, t⟩ [.tell τ]
      ⟨.telling τ.id :: frames, (τ.prepared { u with lastDirty := some τ.id }).noteCall τ.call?⟩
  | told {frames : List (Frame κ)} {t : Tree κ σ} {w : WatcherId} :
    Next ⟨.telling w :: frames, t⟩ [] ⟨frames, t⟩
  | visited {frames : List (Frame κ)} {t : Tree κ σ} {s : ScopeId} {rest : List WatcherId} :
    Next ⟨.visiting s rest :: frames, t⟩ [] ⟨frames, t⟩
  | deliver {frames : List (Frame κ)} {t : Tree κ σ} (e : EventId) (name : String) (s : ScopeId) :
    Next ⟨frames, t⟩ []
      ⟨.hearing e s ((t.modifyEvent e (·.enter s)).listenersFor s name) :: frames,
        t.modifyEvent e (·.enter s)⟩
  | miss {frames : List (Frame κ)} {t : Tree κ σ} {e : EventId} {s : ScopeId} {l : ListenerId}
    {rest : List ListenerId} (h : (t.listeners[l]?).any (·.active) = false) :
    Next ⟨.hearing e s (l :: rest) :: frames, t⟩ [] ⟨.hearing e s rest :: frames, t⟩
  | hear {frames : List (Frame κ)} {t : Tree κ σ} {e : EventId} {s : ScopeId} {l : ListenerId}
    {rest : List ListenerId} {listener : Listener κ} (args : List Value)
    (hl : t.listeners[l]? = some listener) (hactive : listener.active = true) :
    Next ⟨.hearing e s (l :: rest) :: frames, t⟩ [.hear l listener e args]
      ⟨.hearing e s rest :: frames, t.note (.called listener.procedure (.event e args))⟩
  | heard {frames : List (Frame κ)} {t : Tree κ σ} {e : EventId} {s : ScopeId} :
    Next ⟨.hearing e s [] :: frames, t⟩ [] ⟨frames, t⟩
  | start {frames : List (Frame κ)} {t u : Tree κ σ} {q : Queue} {task : Task κ}
    (h : t.dequeue? q = some (task, u)) :
    Next ⟨frames, t⟩ [] ⟨.working task :: frames, u⟩
  | work {frames : List (Frame κ)} {t : Tree κ σ} {task : Task κ} {procedure : κ} {how : Invocation}
    (h : task.Calls t procedure how) :
    Next ⟨.working task :: frames, t⟩ [.work task procedure how]
      ⟨.working task :: frames, t.note (.called procedure how)⟩
  | worked {frames : List (Frame κ)} {t : Tree κ σ} {task : Task κ} :
    Next ⟨.working task :: frames, t⟩ [] ⟨frames, t⟩
  | body {frames : List (Frame κ)} {t : Tree κ σ} (procedure : κ) (s : ScopeId) :
    Next ⟨frames, t⟩ [.body procedure s] ⟨frames, t.note (.called procedure (.body s))⟩

/-- Scenes one after another, and all that is done. -/
inductive Story : Scene κ σ → List (Deed κ) → Scene κ σ → Prop
  | none (m : Scene κ σ) : Story m [] m
  | more {m m' m'' : Scene κ σ} {ds ds' : List (Deed κ)} (hstory : Story m ds m')
    (hnext : Next m' ds' m'') : Story m (ds ++ ds') m''

variable {m m' m'' : Scene κ σ} {ds ds' : List (Deed κ)}

namespace Next

lemma story (h : Next m ds m') : Story m ds m' := .more (.none m) h

/-- The journal notes the calls that are made. -/
lemma calls (h : Next m ds m') :
    m'.tree.calls = (ds.filterMap Deed.call?).reverse ++ m.tree.calls := by
  cases h with
  | drift h => exact h.calls
  | start h => exact Tree.calls_of_dequeue? h
  | @tell frames t u new τ hrecord =>
    obtain ⟨_, _, hu⟩ := Tree.eq_of_record hrecord
    have hcall : ([Deed.tell τ].filterMap Deed.call?).reverse = τ.call?.toList := by
      have hdeed : (Deed.tell τ).call? = τ.call? := rfl
      cases h : τ.call? with
      | none => simp [hdeed, h]
      | some call => simp [hdeed, h]
    rw [hcall, hu]
    exact (Tree.calls_noteCall _ _).trans (congrArg _ (Telling.calls_prepared _ _))
  | _ => rfl

/-- The next scene has a later tree. -/
lemma grows (h : Next m ds m') : m.tree.Grows m'.tree := by
  cases h with
  | drift h => exact h.grows
  | start h => exact .of_frame (Tree.frame_of_dequeue? h)
  | @tell frames t u new τ hrecord hw =>
    have hprepared : (τ.prepared { u with lastDirty := some τ.id }).frame = u.frame :=
      Telling.frame_prepared (t := { u with lastDirty := some τ.id }) hw
    refine .of_frame ((Tree.frame_noteCall _ _).trans (hprepared.trans ?_))
    exact Tree.frame_record hrecord
  | _ => exact .of_frame rfl

end Next

namespace Story

lemma trans (h : Story m ds m') (h' : Story m' ds' m'') : Story m (ds ++ ds') m'' := by
  induction h' with
  | none =>
    rw [List.append_nil]
    exact h
  | more _ hnext ih =>
    rw [← List.append_assoc]
    exact .more ih hnext

/-- The journal notes the calls that are made, the last one first. -/
theorem calls (h : Story m ds m') :
    m'.tree.calls = (ds.filterMap Deed.call?).reverse ++ m.tree.calls := by
  induction h with
  | none => rfl
  | more _ hnext ih =>
    rw [hnext.calls, ih, List.filterMap_append, List.reverse_append, List.append_assoc]

lemma grows (h : Story m ds m') : m.tree.Grows m'.tree := by
  induction h with
  | none => exact refl_of Tree.Grows _
  | more _ hnext ih => exact trans_of Tree.Grows ih hnext.grows

end Story

end Scene

/-! ## Scopes and listeners -/

/-- A relation between trees that goes along with all that changes scopes and listeners. -/
structure Tree.Rearranges (R : Tree κ σ → Tree κ σ → Prop) : Prop where
  same : ∀ {t u : Tree κ σ}, u.scopes = t.scopes → u.listeners = t.listeners → R t u
  newScope : ∀ (t : Tree κ σ) s isolated parent, R t (t.newScope s isolated parent).2
  addWatcher : ∀ (t : Tree κ σ) s kind byValue, R t (t.addWatcher s kind byValue).2
  removeWatcher : ∀ (t : Tree κ σ) w, R t (t.removeWatcher w)
  addListener : ∀ (t : Tree κ σ) s event procedure, R t (t.addListener s event procedure).2
  removeListener : ∀ (t : Tree κ σ) l, R t (t.removeListener l)
  beginDestroy : ∀ {t : Tree κ σ} {s}, (t.scope s).isDestroyed = false → R t (t.beginDestroy s)
  tearDown : ∀ (t : Tree κ σ) s, R t (t.tearDown s)

namespace Tree.Rearranges

variable {R : Tree κ σ → Tree κ σ → Prop} {t u : Tree κ σ} {m m' : Scene κ σ} {ds : List (Deed κ)}

lemma act (hR : Rearranges R) (h : t.Act u) : R t u := by
  cases h.registers with
  | newScope s isolated parent => exact hR.newScope t s isolated parent
  | addWatcher s kind byValue => exact hR.addWatcher t s kind byValue
  | removeWatcher w => exact hR.removeWatcher t w
  | addListener s event procedure => exact hR.addListener t s event procedure
  | removeListener l => exact hR.removeListener t l
  | nothing hscopes _ hlisteners => exact hR.same hscopes hlisteners

lemma drift (hR : Rearranges R) (h : t.Drift u) : R t u := by
  cases h with
  | act h _ => exact hR.act h
  | tick h => rcases h.eq_or_eq with ⟨_, _, rfl⟩ | ⟨_, _, rfl⟩ <;> exact hR.same rfl rfl
  | beginDestroy h => exact hR.beginDestroy h
  | tearDown s => exact hR.tearDown t s
  | enter h =>
    obtain rfl := eq_of_enter h
    exact hR.same rfl rfl
  | start =>
    obtain ⟨_, _, h⟩ := cancelApply_eq { t with lastDirty := none }
    rw [h]
    exact hR.same rfl rfl
  | _ => exact hR.same rfl rfl

lemma noteCall (hR : Rearranges R) (t : Tree κ σ) (call : Option (κ × Invocation)) :
    R t (t.noteCall call) := by
  cases call <;> exact hR.same rfl rfl

lemma prepared (hR : Rearranges R) (τ : Telling κ) (t : Tree κ σ) : R t (τ.prepared t) := by
  unfold Telling.prepared
  split <;> exact hR.same rfl rfl

variable [IsPreorder (Tree κ σ) R]

lemma next (hR : Rearranges R) (h : m.Next ds m') : R m.tree m'.tree := by
  cases h with
  | drift h => exact hR.drift h
  | start h =>
    obtain ⟨_, rfl⟩ := eq_of_dequeue? h
    exact hR.same rfl rfl
  | @tell frames t u new τ hrecord =>
    obtain ⟨watchers, store, rfl⟩ := eq_of_record hrecord
    have hrecorded : R t { t with watchers, store, lastDirty := some τ.id } := hR.same rfl rfl
    have hprepared := hR.prepared τ { t with watchers, store, lastDirty := some τ.id }
    exact trans_of R hrecorded (trans_of R hprepared (hR.noteCall _ τ.call?))
  | _ => exact hR.same rfl rfl

/-- What goes along with every single change goes along with every story. -/
theorem story (hR : Rearranges R) (h : m.Story ds m') : R m.tree m'.tree := by
  induction h with
  | none => exact refl_of R _
  | more _ hnext ih => exact trans_of R ih (hR.next hnext)

end Tree.Rearranges

end DataBinding
