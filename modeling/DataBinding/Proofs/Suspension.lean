import DataBinding.Proofs.Soundness

/-!
# What goes on while an event waits

A listener that hears an event can have anything done, and more events sent on their way, while its
own waits where it is.  Of all that nothing moves the event, nobody hears it in the meantime, and
what listeners asked of it stays asked for (`Tree.Suspends`).

The relation does not hold across every single change, as a delivery moves its event from scope to
scope.  But a delivery that is asked for meanwhile is that of an event that did not exist before, so
the relation holds across it as a whole (`Engine.suspends_send`), and with it across whatever a
program asks for (`Host.suspends_invoke`).
-/

namespace DataBinding

open Compute (Leads runOn)

variable {κ σ α : Type}

/-- The event that is heard in a call, if one is. -/
def Invocation.event? : Invocation → Option EventId
  | .event e _ => some e
  | _ => none

/-- The calls in which an event was heard, the last one first. -/
def Tree.hearings (t : Tree κ σ) (e : EventId) : List (κ × Invocation) :=
  t.calls.filter (·.2.event? == some e)

/-! ## Events that wait -/

/-- What becomes of an event that waits: it is where it was, and what listeners asked for they have
asked for. -/
structure Event.Waits (a b : Event) : Prop where
  name : b.name = a.name
  target : b.target = a.target
  stoppable : b.stoppable = a.stoppable
  current : b.current = a.current
  stopped : a.stopped = true → b.stopped = true
  prevented : a.prevented = true → b.prevented = true

namespace Event.Waits

variable {a b c : Event}

lemma refl (a : Event) : a.Waits a := ⟨rfl, rfl, rfl, rfl, id, id⟩

lemma trans (h₁ : a.Waits b) (h₂ : b.Waits c) : a.Waits c where
  name := h₂.name.trans h₁.name
  target := h₂.target.trans h₁.target
  stoppable := h₂.stoppable.trans h₁.stoppable
  current := h₂.current.trans h₁.current
  stopped := h₂.stopped ∘ h₁.stopped
  prevented := h₂.prevented ∘ h₁.prevented

lemma stop (a : Event) : a.Waits a.stop := by
  unfold Event.stop
  split
  · exact ⟨rfl, rfl, rfl, rfl, fun _ => rfl, id⟩
  · exact refl a

lemma prevent (a : Event) : a.Waits a.prevent := ⟨rfl, rfl, rfl, rfl, id, fun _ => rfl⟩

end Event.Waits

namespace Tree

variable {t u v : Tree κ σ} {e i : EventId}

/-- The event waits between the two trees. -/
def Holds (e : EventId) (t u : Tree κ σ) : Prop :=
  ∀ x, t.events[e]? = some x → ∃ y, u.events[e]? = some y ∧ x.Waits y

/-- The event waits between the two trees, and if it exists nobody hears it. -/
structure Suspends (e : EventId) (t u : Tree κ σ) : Prop where
  holds : Holds e t u
  hearings : e < t.events.size → u.hearings e = t.hearings e

lemma Holds.lt_size (h : Holds e t u) (he : e < t.events.size) : e < u.events.size := by
  obtain ⟨y, hy, -⟩ := h _ (Array.getElem?_eq_getElem he)
  exact (Array.getElem?_eq_some_iff.1 hy).1

instance : IsPreorder (Tree κ σ) (Holds e) where
  refl _ x hx := ⟨x, hx, .refl x⟩
  trans _ _ _ h₁ h₂ x hx := by
    obtain ⟨y, hy, hxy⟩ := h₁ x hx
    obtain ⟨z, hz, hyz⟩ := h₂ y hy
    exact ⟨z, hz, hxy.trans hyz⟩

instance : IsPreorder (Tree κ σ) (Suspends e) where
  refl t := ⟨refl_of (Holds e) t, fun _ => rfl⟩
  trans _ _ _ h₁ h₂ :=
    ⟨trans_of (Holds e) h₁.holds h₂.holds,
      fun he => (h₂.hearings (h₁.holds.lt_size he)).trans (h₁.hearings he)⟩

lemma holds_modifyEvent {f : Event → Event} (hf : ∀ x : Event, x.Waits (f x)) :
    Holds e t (t.modifyEvent i f) := fun x hx => by
  by_cases hi : i = e
  · exact ⟨f x, by simp [modifyEvent, Array.getElem?_modify, hi, hx], hf x⟩
  · exact ⟨x, by simp [modifyEvent, Array.getElem?_modify, hi, hx], .refl x⟩

lemma getElem?_modifyEvent_of_ne (hi : i ≠ e) (f : Event → Event) :
    (t.modifyEvent i f).events[e]? = t.events[e]? := by
  simp [modifyEvent, Array.getElem?_modify, hi]

lemma holds_of_getElem? (h : u.events[e]? = t.events[e]?) : Holds e t u :=
  fun x hx => ⟨x, h.trans hx, .refl x⟩

namespace Suspends

/-- A change of neither the event nor the calls. -/
lemma of_same (hevents : u.events = t.events) (hcalls : u.calls = t.calls) : Suspends e t u :=
  ⟨holds_of_getElem? (by rw [hevents]), fun _ => by rw [Tree.hearings, hcalls, Tree.hearings]⟩

lemma modifyEvent {f : Event → Event} (hf : ∀ x : Event, x.Waits (f x)) (t : Tree κ σ)
    (i : EventId) : Suspends e t (t.modifyEvent i f) :=
  ⟨holds_modifyEvent hf, fun _ => rfl⟩

lemma modifyEvent_of_ne (hi : i ≠ e) (f : Event → Event) (t : Tree κ σ) :
    Suspends e t (t.modifyEvent i f) :=
  ⟨holds_of_getElem? (getElem?_modifyEvent_of_ne hi f), fun _ => rfl⟩

/-- The call of a procedure that does not hear the event. -/
lemma called (procedure : κ) {how : Invocation} (hhow : how.event? ≠ some e) (t : Tree κ σ) :
    Suspends e t (t.note (.called procedure how)) :=
  ⟨holds_of_getElem? rfl, fun _ => List.filter_cons_of_neg (by simpa using hhow)⟩

lemma queueAsync (t : Tree κ σ) (s : ScopeId) (work : Work κ) :
    Suspends e t (t.queueAsync s work) := by
  obtain ⟨deferral, h⟩ := queueAsync_eq t s work
  exact .of_same (by rw [h]; rfl) (calls_queueAsync t s work)

lemma armApply (t : Tree κ σ) : Suspends e t t.armApply := by
  obtain ⟨deferral, applyFlush, h⟩ := armApply_eq t
  exact .of_same (by rw [h]) (calls_armApply t)

lemma queueApply (t : Tree κ σ) (s : ScopeId) (work : Work κ) :
    Suspends e t (t.queueApply s work) := by
  have hqueued : Suspends e t (t.enqueue .apply s work) := .of_same rfl rfl
  exact trans_of (Suspends e) hqueued (armApply _)

lemma removeWatcher (t : Tree κ σ) (w : WatcherId) : Suspends e t (t.removeWatcher w) := by
  obtain ⟨_, _, _, h, -⟩ := removeWatcher_eq t w
  exact .of_same (by rw [h]) (calls_removeWatcher t w)

lemma removeWatchers (t : Tree κ σ) (ws : List WatcherId) :
    Suspends e t (t.removeWatchers ws) := by
  induction ws generalizing t with
  | nil => exact refl_of (Suspends e) t
  | cons w ws ih => exact trans_of (Suspends e) (removeWatcher t w) (ih _)

lemma removeListener (t : Tree κ σ) (l : ListenerId) : Suspends e t (t.removeListener l) := by
  obtain ⟨_, _, h⟩ := removeListener_eq t l
  exact .of_same (by rw [h]) (calls_removeListener t l)

lemma deregister (t : Tree κ σ) (r : Registration) : Suspends e t (t.deregister r) := by
  cases r with
  | watcher w => exact removeWatcher t w
  | group ws => exact removeWatchers t ws
  | announcement a => exact .of_same rfl rfl
  | listener l => exact removeListener t l

lemma settle (t : Tree κ σ) (w : WatcherId) : Suspends e t (t.settle w) := by
  unfold Tree.settle
  split
  · split
    · exact removeWatcher t w
    · exact refl_of (Suspends e) t
  · exact refl_of (Suspends e) t

lemma addMembers (t : Tree κ σ) (s : ScopeId) (g : GroupId) (index : ℕ) (watches : List κ) :
    Suspends e t (t.addMembers s g index watches).2 := by
  induction watches generalizing t index with
  | nil => exact refl_of (Suspends e) t
  | cons watch rest ih =>
    have hfirst : Suspends e t (t.addWatcher s (.member watch g index) false).2 := .of_same rfl rfl
    exact trans_of (Suspends e) hfirst (ih _ _)

lemma noticeCollection (t : Tree κ σ) (w : WatcherId) (v : Value) :
    Suspends e t (t.noticeCollection w v).2 := by
  unfold Tree.noticeCollection
  split
  · exact .of_same rfl rfl
  · exact refl_of (Suspends e) t

lemma record {w : WatcherId} {new : Value} {change : Option Change}
    (h : t.record w new = some (change, u)) : Suspends e t u := by
  obtain ⟨watchers, store, rfl⟩ := eq_of_record h
  exact .of_same rfl rfl

lemma dequeue {q : Queue} {task : Task κ} (h : t.dequeue? q = some (task, u)) :
    Suspends e t u := by
  obtain ⟨rest, rfl⟩ := eq_of_dequeue? h
  exact .of_same rfl rfl

/-- What a digest changes at its beginning. -/
lemma start (t : Tree κ σ) : Suspends e t { t with lastDirty := none }.cancelApply := by
  obtain ⟨_, _, h⟩ := cancelApply_eq { t with lastDirty := none }
  rw [h]
  exact .of_same rfl rfl

lemma tick (h : t.Tick u) : Suspends e t u := by
  rcases h.eq_or_eq with ⟨_, _, rfl⟩ | ⟨_, _, rfl⟩ <;> exact .of_same rfl rfl

lemma tearDown (t : Tree κ σ) (s : ScopeId) : Suspends e t (t.tearDown s) := by
  unfold Tree.tearDown
  dsimp only
  split <;> exact .of_same rfl rfl

lemma evaluated (h : Evaluated t u) : Suspends e t u := by
  obtain ⟨store, rfl⟩ := h
  exact .of_same rfl rfl

end Suspends

end Tree

open DataBinding.Tree (Suspends)

/-! ## Routines that call no procedure -/

variable {e : EventId}

namespace Engine

variable {E : Engine κ σ}

lemma suspends_onStore (m : Compute (Store σ) α) :
    Leads (Suspends e) (Routine.onStore (κ := κ) m) :=
  .within m fun _ _ => .of_same rfl rfl

lemma suspends_parse (source : String) :
    Leads (Suspends e) (Routine.parse (κ := κ) (σ := σ) source) :=
  (Leads.alter fun _ => .of_same rfl rfl).bind fun r => .ofExcept r

lemma suspends_reportError (error : Error) : Leads (Suspends e) (E.reportError error) :=
  .change fun _ => .of_same rfl rfl

lemma suspends_contained {m : Routine κ σ Unit} (hm : Leads (Suspends e) m) :
    Leads (Suspends e) (E.contained m) := by
  refine hm.attempt.bind fun r => ?_
  cases r with
  | ok => exact .pure ()
  | error error => exact suspends_reportError error

lemma suspends_evaluate (s : ScopeId) (x : Expression) (locals : Option Value) :
    Leads (Suspends e) (E.evaluate s x locals) :=
  fun _ _ _ h => .evaluated (evaluated_evaluate s x locals h)

lemma suspends_evaluateSource (s : ScopeId) (source : String) (locals : Option Value) :
    Leads (Suspends e) (E.evaluateSource s source locals) :=
  (suspends_parse source).bind fun x => suspends_evaluate s x locals

lemma suspends_observeInputs (s : ScopeId) (w : WatcherId) (x : Expression) (listener : κ)
    (memo : Option Memo) : Leads (Suspends e) (E.observeInputs s w x listener memo) := by
  have hinputs : Leads (Suspends e) (E.evaluateInputs s x) :=
    fun _ _ _ h => .evaluated (evaluated_evaluateInputs s x h)
  refine hinputs.bind fun inputs => ?_
  split
  · exact .pure _
  · refine (suspends_evaluate s x none).bind fun result => ?_
    exact (Leads.change fun _ => .of_same rfl rfl).bind fun _ => .pure _

lemma suspends_writeMember (a index : ℕ) (v : Value) :
    Leads (Suspends e) (writeMember (κ := κ) (σ := σ) a index v) :=
  (Leads.read _).bind fun _ => (Leads.ofExcept _).bind fun _ => suspends_onStore _

lemma suspends_reactMember (s : ScopeId) (g : GroupId) (index : ℕ) (change : Change) :
    Leads (Suspends e) (reactMember (κ := κ) (σ := σ) s g index change) := by
  refine (Leads.read _).bind fun group => ?_
  cases group with
  | none => exact .pure ()
  | some group =>
    refine (suspends_writeMember _ _ _).bind fun _ => (suspends_writeMember _ _ _).bind fun _ => ?_
    refine (Leads.alter fun _ => .of_same rfl rfl).bind fun first => ?_
    cases first with
    | false => exact .pure ()
    | true => exact .change fun t => .queueAsync t _ _

lemma suspends_enter (phase : Phase) :
    Leads (Suspends e) (enter (κ := κ) (σ := σ) phase) := by
  intro t r u h
  rw [enter, Compute.runOn_read_bind] at h
  cases hphase : t.enter phase with
  | error error =>
    rw [hphase] at h
    cases h
    exact refl_of (Suspends e) t
  | ok v =>
    rw [hphase] at h
    cases h
    obtain rfl := Tree.eq_of_enter hphase
    exact .of_same rfl rfl

lemma suspends_leave (phase : Phase) : Leads (Suspends e) (leave (κ := κ) (σ := σ) phase) :=
  .change fun _ => .of_same rfl rfl

lemma suspends_watchExpression (s : ScopeId) (source : String) (listener : κ) (byValue : Bool) :
    Leads (Suspends e) (watchExpression (σ := σ) s source listener byValue) :=
  (suspends_parse source).bind fun _ => .map _ (.alter fun _ => .of_same rfl rfl)

lemma suspends_watchGroup (s : ScopeId) (watches : List κ) (listener : κ) :
    Leads (Suspends e) (watchGroup (σ := σ) s watches listener) := by
  unfold watchGroup
  split
  · refine (Leads.alter fun _ => .of_same rfl rfl).bind fun a => ?_
    exact (Leads.change fun t => .queueAsync t _ _).bind fun _ => .pure _
  · refine (Leads.alter fun _ => .of_same rfl rfl).bind fun g => ?_
    exact .map _ (.alter fun t => .addMembers t s g 0 watches)

/-! ## Routines that call procedures -/

section Calls

variable (hinvoke : ∀ procedure how, Leads (Suspends e) (E.invoke procedure how))

include hinvoke

lemma suspends_call (procedure : κ) (how : Invocation) (hhow : how.event? ≠ some e) :
    Leads (Suspends e) (E.call procedure how) :=
  (Leads.change (.called procedure hhow)).bind fun _ => hinvoke procedure how

lemma suspends_tell (listener : κ) (s : ScopeId) (change : Change) :
    Leads (Suspends e) (E.tell listener s change) :=
  (suspends_call hinvoke listener (.changed s change) nofun).discard

/-! ### Watchers -/

lemma suspends_observe (s : ScopeId) (w : WatcherId) (kind : WatchKind κ) :
    Leads (Suspends e) (E.observe s w kind) := by
  cases kind with
  | procedure | member => exact suspends_call hinvoke _ (.watch s) nofun
  | expression | constant | oneTime => exact suspends_evaluate s _ none
  | inputs x listener memo => exact suspends_observeInputs s w x listener memo
  | collection watch =>
    refine (suspends_call hinvoke watch (.watch s) nofun).bind fun v => ?_
    exact .alter fun t => .noticeCollection t w v

lemma suspends_check (w : WatcherId) : Leads (Suspends e) (E.check w) := by
  refine (Leads.change fun _ => .of_same rfl rfl).bind fun _ => ?_
  refine (Leads.read _).bind fun watcher => ?_
  cases watcher with
  | none => exact .pure none
  | some watcher =>
    refine (suspends_observe hinvoke _ w _).bind fun new => ?_
    exact .alterEndless fun _ _ _ h => .record h

lemma suspends_reactOneTime (s : ScopeId) (w : WatcherId) (x : Expression) (listener : κ)
    (change : Change) : Leads (Suspends e) (E.reactOneTime s w x listener change) := by
  refine (Leads.change fun _ => .of_same rfl rfl).bind fun _ => ?_
  refine (suspends_tell hinvoke listener s change).attempt.bind fun result => ?_
  refine (Leads.read _).bind fun settled => ?_
  split
  · exact (Leads.change fun _ => .of_same rfl rfl).bind fun _ => .ofExcept result
  · exact .ofExcept result

lemma suspends_react (s : ScopeId) (w : WatcherId) (change : Change) (kind : WatchKind κ) :
    Leads (Suspends e) (E.react s w change kind) := by
  cases kind with
  | procedure | expression | inputs => exact suspends_tell hinvoke _ s change
  | constant x listener =>
    refine (suspends_tell hinvoke listener s change).attempt.bind fun result => ?_
    exact (Leads.change fun t => .removeWatcher t w).bind fun _ => .ofExcept result
  | oneTime x listener => exact suspends_reactOneTime hinvoke s w x listener change
  | member watch g index => exact suspends_reactMember s g index change
  | collection watch listener state =>
    exact (Leads.alter fun _ => .of_same rfl rfl).bind fun change =>
      suspends_tell hinvoke listener s change

lemma suspends_notify (w : WatcherId) (change : Change) :
    Leads (Suspends e) (E.notify w change) := by
  refine (Leads.read _).bind fun watcher => ?_
  cases watcher with
  | none => exact .pure ()
  | some watcher => exact suspends_react hinvoke _ w change _

lemma suspends_visitWatcher (w : WatcherId) : Leads (Suspends e) (E.visitWatcher w) := by
  refine (Leads.read _).bind fun active => ?_
  split
  · refine (suspends_check hinvoke w).attempt.bind fun result => ?_
    rcases result with error | _ | change
    · exact (suspends_reportError error).bind fun _ => .pure _
    · exact (Leads.read _).bind fun _ => .pure _
    · refine (Leads.change fun _ => .of_same rfl rfl).bind fun _ => ?_
      exact (suspends_contained (suspends_notify hinvoke w change)).bind fun _ => .pure _
  · exact .pure _

lemma suspends_pass (s : ScopeId) : Leads (Suspends e) (E.pass s) := by
  have hscope : ∀ s, Leads (Suspends e) (E.visitScope s) := fun _ =>
    (Leads.read _).bind fun ws => Routine.leads_inOrder (suspends_visitWatcher hinvoke) ws
  exact (Leads.change fun _ => .of_same rfl rfl).bind fun _ =>
    (Routine.leads_walk hscope _ s).bind fun _ => .pure _

/-! ### Tasks -/

lemma suspends_callGroup (s : ScopeId) (g : GroupId) : Leads (Suspends e) (E.callGroup s g) := by
  refine (Leads.read _).bind fun group => ?_
  cases group with
  | none => exact .pure ()
  | some group =>
    refine (Leads.alter fun _ => .of_same rfl rfl).bind fun change => ?_
    refine (suspends_tell hinvoke _ s change).attempt.bind fun result => ?_
    exact (Leads.change fun _ => .of_same rfl rfl).bind fun _ => .ofExcept result

lemma suspends_announce (s : ScopeId) (a : ℕ) : Leads (Suspends e) (E.announce s a) := by
  refine (Leads.read _).bind fun announcement => ?_
  cases announcement with
  | none => exact .pure ()
  | some announcement =>
    dsimp only
    split
    · exact .pure ()
    · exact (suspends_onStore _).bind fun _ => suspends_tell hinvoke _ s _

lemma suspends_perform (s : ScopeId) (work : Work κ) : Leads (Suspends e) (E.perform s work) := by
  cases work with
  | procedure body => exact (suspends_call hinvoke body (.task s) nofun).discard
  | group g => exact suspends_callGroup hinvoke s g
  | announcement a => exact suspends_announce hinvoke s a
  | settle w => exact .change fun t => .settle t w
  | rearm => exact .change .armApply

lemma suspends_drain (q : Queue) : Leads (Suspends e) (E.drain q) :=
  leads_drain_of_task fun hnext hrun =>
    trans_of (Suspends e) (.dequeue hnext)
      (suspends_contained (suspends_perform hinvoke _ _) hrun)

/-! ### Digests and applies -/

lemma suspends_digest (s : ScopeId) : Leads (Suspends e) (E.digest s) := by
  refine (suspends_enter .digest).bind fun _ => ?_
  refine (Leads.change .start).bind fun _ => ?_
  refine (suspends_drain hinvoke .apply).bind fun _ => (Leads.read _).bind fun ttl => ?_
  refine (leads_passes (suspends_drain hinvoke .async) (suspends_pass hinvoke s) ttl).bind
    fun settled => (suspends_leave .digest).bind fun _ => ?_
  split
  · exact suspends_drain hinvoke .postDigest
  · exact .throw _

lemma suspends_apply {body : Routine κ σ Value} (hbody : Leads (Suspends e) body) :
    Leads (Suspends e) (E.apply body) :=
  (suspends_enter .apply).bind fun _ => hbody.attempt.bind fun result =>
    (suspends_leave .apply).bind fun _ => (suspends_digest hinvoke rootId).bind fun _ =>
      .ofExcept result

/-! ### Deferred jobs -/

lemma suspends_runJob (job : JobKind) : Leads (Suspends e) (E.runJob job) := by
  cases job with
  | digest =>
    refine (Leads.read _).bind fun idle => ?_
    split
    · exact .pure ()
    · exact suspends_contained (suspends_digest hinvoke rootId)
  | apply =>
    have hqueued : Leads (Suspends e) E.applyQueued :=
      suspends_apply hinvoke ((suspends_drain hinvoke .apply).bind fun _ => .pure _)
    refine (Leads.alter fun t => .tick (.disarm t)).bind fun pending => ?_
    split
    · refine hqueued.attempt.bind fun result => ?_
      split
      · exact .pure ()
      · exact .change fun _ => .of_same rfl rfl
      · exact suspends_reportError _
    · exact .pure ()

lemma suspends_flush : Leads (Suspends e) E.flush :=
  leads_runJobs (fun hnext hrun => trans_of (Suspends e) (.tick (.takeFirst hnext))
    (suspends_runJob hinvoke _ hrun)) _

lemma suspends_advance (milliseconds : ℕ) : Leads (Suspends e) (E.advance milliseconds) := by
  refine (Leads.read _).bind fun deadline => Leads.bind (Leads.discard ?_) fun _ =>
    .change fun t => .tick (.clock t deadline)
  exact leads_runJobs (fun hnext hrun => trans_of (Suspends e) (.tick (.takeDue hnext))
    (suspends_runJob hinvoke _ hrun)) _

/-! ### Other events -/

variable {i : EventId}

/-- The delivery of another event. -/
lemma suspends_deliver (hi : i ≠ e) (name : String) (args : List Value) (s : ScopeId) :
    Leads (Suspends e) (E.deliver i name args s) := by
  have hhow : (Invocation.event i args).event? ≠ some e := fun h => hi (Option.some.inj h)
  have hhear : ∀ l, Leads (Suspends e) (E.hear i args l) := fun l => by
    refine (Leads.read _).bind fun listener => ?_
    split
    · exact suspends_contained (suspends_call hinvoke _ _ hhow).discard
    · exact .pure ()
  exact (Leads.change (.modifyEvent_of_ne hi _)).bind fun _ =>
    (Leads.read _).bind fun ls => leads_hearAll hhear ls

lemma suspends_climb (hi : i ≠ e) (name : String) (args : List Value) (s : ScopeId) :
    Leads (Suspends e) (E.climb i name args s) := by
  induction s using Nat.strongRecOn with
  | ind s ih =>
    rw [climb]
    refine (suspends_deliver hinvoke hi name args s).bind fun _ => (Leads.read _).bind fun _ => ?_
    split
    · exact .pure ()
    · refine (Leads.read _).bind fun parent => ?_
      split
      · split
        · next hp => exact ih _ hp
        · exact .pure ()
      · exact .pure ()

omit hinvoke in
/-- An event that is made and sent on its way is another one. -/
lemma suspends_send {travel : EventId → Routine κ σ Unit}
    (htravel : ∀ i, i ≠ e → Leads (Suspends e) (travel i)) (target : ScopeId) (name : String)
    (stoppable : Bool) : Leads (Suspends e) (send target name stoppable travel) := by
  intro t r u h
  by_cases he : e < t.events.size
  · have hne : t.events.size ≠ e := (Nat.ne_of_lt he).symm
    have hmade : Suspends e t { t with events := t.events.push { name, target, stoppable } } := by
      refine ⟨Tree.holds_of_getElem? ?_, fun _ => rfl⟩
      rw [Array.getElem?_push_lt he, Array.getElem?_eq_getElem he]
    rw [send, Compute.runOn_alter_bind] at h
    refine trans_of (Suspends e) hmade (Leads.bind (htravel _ hne) (fun _ => ?_) h)
    exact (Leads.change (.modifyEvent_of_ne hne _)).bind fun _ => .pure _
  · refine ⟨fun x hx => ?_, fun hlt => absurd hlt he⟩
    exact absurd (Array.getElem?_eq_some_iff.1 hx).1 he

lemma suspends_emit (s : ScopeId) (name : String) (args : List Value) :
    Leads (Suspends e) (E.emit s name args) :=
  suspends_send (fun _ hi => suspends_climb hinvoke hi name args s) s name true

lemma suspends_broadcast (s : ScopeId) (name : String) (args : List Value) :
    Leads (Suspends e) (E.broadcast s name args) :=
  suspends_send (fun _ hi => Leads.discard (Routine.leads_walk (fun q =>
    (suspends_deliver hinvoke hi name args q).bind fun _ => .pure _) _ _)) s name false

lemma suspends_destroy (s : ScopeId) : Leads (Suspends e) (E.destroy s) := by
  refine (Leads.read _).bind fun destroyed => ?_
  split
  · exact .pure ()
  · refine (Leads.change fun _ => .of_same rfl rfl).bind fun _ => ?_
    exact (suspends_broadcast hinvoke s destroyEvent []).discard.bind fun _ =>
      .change fun t => .tearDown t s

/-! ## Programs -/

/-- Whatever a program asks for leaves an event where it is. -/
lemma suspends_answer {β : Type} (q : Request κ σ β) : Leads (Suspends e) (E.answer q) := by
  cases q with
  | look => exact .read id
  | compute m => exact suspends_onStore m
  | parse source => exact suspends_parse source
  | registerFilter | clearCache => exact .change fun _ => .of_same rfl rfl
  | evaluate s source locals => exact suspends_evaluateSource s source locals
  | newChild s isolated parent => exact .alter fun _ => .of_same rfl rfl
  | destroy s => exact suspends_destroy hinvoke s
  | watch | watchCollection | listen => exact .map _ (.alter fun _ => .of_same rfl rfl)
  | watchExpression s source listener byValue =>
    exact suspends_watchExpression s source listener byValue
  | watchGroup s watches listener => exact suspends_watchGroup s watches listener
  | deregister r => exact .change fun t => .deregister t r
  | evalAsync s procedure => exact .change fun t => .queueAsync t _ _
  | applyAsync s procedure => exact .change fun t => .queueApply t _ _
  | postDigest s procedure => exact .change fun _ => .of_same rfl rfl
  | digest s => exact suspends_digest hinvoke s
  | apply s procedure =>
    exact suspends_apply hinvoke (suspends_call hinvoke procedure (.body s) nofun)
  | applySource s source => exact suspends_apply hinvoke (suspends_evaluateSource s source none)
  | emit s name args => exact suspends_emit hinvoke s name args
  | broadcast s name args => exact suspends_broadcast hinvoke s name args
  | stop i => exact .change fun t => .modifyEvent .stop t i
  | prevent i => exact .change fun t => .modifyEvent .prevent t i
  | report error => exact suspends_reportError error
  | flush => exact suspends_flush hinvoke
  | advance milliseconds => exact suspends_advance hinvoke milliseconds

lemma suspends_execute (p : Program κ σ α) : Leads (Suspends e) (E.execute p) := by
  induction p with
  | done result => exact .ofExcept result
  | ask q next ih => exact (suspends_answer hinvoke q).attempt.bind ih

end Calls

end Engine

/-- Whatever the procedures of a host do, an event that is on its way waits for them where it is. -/
theorem Host.suspends_invoke (H : Host κ σ) (limit : ℕ) (procedure : κ) (how : Invocation) :
    Leads (Suspends e) (H.invoke limit procedure how) := by
  induction limit generalizing procedure how with
  | zero => exact .endless
  | succ limit ih =>
    exact Engine.suspends_execute (E := H.engine limit) ih (H.procedure procedure how)

end DataBinding
