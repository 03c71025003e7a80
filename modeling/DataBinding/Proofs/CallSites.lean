import DataBinding.Proofs.Scenes
import Mathlib.Logic.Relation

/-!
# Where procedures are called

The engine calls procedures of the host where a listener hears an event, where a task is performed,
where a watcher observes what it watches, and where the host is told of a change.  This module takes
the runs of its routines apart there.  What comes before a call and what comes after it is made of
shifts (`Tree.Shift`): single changes at which no procedure is called, no task is taken, no change
of a watched value is recorded and none is handed on to a group.

So each of these routines comes to few things: `Engine.hear_cases`, `Engine.perform_cases`,
`Engine.observe_cases`, `Engine.notify_cases`, and `Engine.visit_parts` for the visit of a watcher
as a whole.  Where it matters what exactly the trees in between are, `Engine.visit_steps`,
`Engine.reactMember_steps`, `Engine.callGroup_steps` and `Engine.hear_steps` name them.
-/

namespace DataBinding

open Compute (Leads runOn runOn_bind_cases)
open Relation (ReflTransGen)

variable {κ σ : Type}

/-! ## Shifts -/

namespace Tree

/-- A single change of a tree at which no procedure is called, no task is taken, no change of a
watched value is recorded and none is handed on to a group. -/
inductive Shift : Tree κ σ → Tree κ σ → Prop
  | edit {t u : Tree κ σ} (h : t.Edit u) : Shift t u
  | tick {t u : Tree κ σ} (h : t.Tick u) : Shift t u
  | beginDestroy {t : Tree κ σ} {s : ScopeId} (h : (t.scope s).isDestroyed = false) :
    Shift t (t.beginDestroy s)
  | tearDown (t : Tree κ σ) (s : ScopeId) : Shift t (t.tearDown s)
  | setKind {t : Tree κ σ} {w : WatcherId} {watcher : Watcher κ} {kind : WatchKind κ}
    (hw : t.watcher? w = some watcher) (hkind : kind.forget = watcher.kind.forget) :
    Shift t (t.setKind w kind)
  | pass (t : Tree κ σ) (s : ScopeId) : Shift t (t.note (.pass s))
  | enter {t u : Tree κ σ} {phase : Phase} (h : t.enter phase = .ok u) : Shift t u
  | leave (t : Tree κ σ) (phase : Phase) : Shift t (t.leave phase)
  | start (t : Tree κ σ) : Shift t { t with lastDirty := none }.cancelApply

/-- Shifts one after another. -/
def Shifts (t u : Tree κ σ) : Prop := ReflTransGen Shift t u

variable {t u v : Tree κ σ}

instance : IsPreorder (Tree κ σ) Shifts where
  refl _ := ReflTransGen.refl
  trans _ _ _ := ReflTransGen.trans

lemma Shift.shifts (h : t.Shift u) : t.Shifts u := ReflTransGen.single h

/-- A relation that holds across every shift holds across several. -/
lemma Shifts.related {R : Tree κ σ → Tree κ σ → Prop} [IsPreorder (Tree κ σ) R]
    (hR : ∀ {t u : Tree κ σ}, t.Shift u → R t u) (h : t.Shifts u) : R t u := by
  induction h with
  | refl => exact refl_of R t
  | tail _ hshift ih => exact trans_of R ih (hR hshift)

lemma proceeds_shifts : Proceeds (Shifts (κ := κ) (σ := σ)) where
  edit h := (Shift.edit h).shifts
  beginDestroy h := (Shift.beginDestroy h).shifts
  tearDown {_ u s} h hu :=
    trans_of Shifts (trans_of Shifts (Shift.beginDestroy h).shifts hu) (Shift.tearDown u s).shifts
  tick h := (Shift.tick h).shifts
  enter h := (Shift.enter h).shifts
  leave := (Shift.leave _ _).shifts
  start := (Shift.start _).shifts

/-- No procedure is called by an edit. -/
lemma Edit.calls (h : t.Edit u) : u.calls = t.calls := by
  cases h with
  | formGroup s watches listener =>
    have hmembers : ∀ (watches : List κ) (t : Tree κ σ) (g index : ℕ),
        (t.addMembers s g index watches).2.calls = t.calls := by
      intro watches
      induction watches with
      | nil => exact fun _ _ _ => rfl
      | cons watch rest ih => exact fun t g index => ih _ _ _
    exact hmembers watches _ _ _
  | queueAsync s => exact calls_queueAsync t s _
  | queueApply s => exact calls_armApply _
  | armApply => exact calls_armApply t
  | removeWatcher w => exact calls_removeWatcher t w
  | removeListener l => exact calls_removeListener t l
  | _ => rfl

lemma Shift.calls (h : t.Shift u) : u.calls = t.calls := by
  cases h with
  | edit h => exact h.calls
  | tick h => rcases h.eq_or_eq with ⟨_, _, rfl⟩ | ⟨_, _, rfl⟩ <;> rfl
  | tearDown s => exact (Drift.tearDown t s).calls
  | enter h => exact (Drift.enter h).calls
  | start => exact (Drift.start t).calls
  | _ => rfl

lemma Shifts.calls (h : t.Shifts u) : u.calls = t.calls := by
  induction h with
  | refl => rfl
  | tail _ hshift ih => exact hshift.calls.trans ih

lemma shifts_setKind {w : WatcherId} {watcher : Watcher κ} {kind : WatchKind κ}
    (hw : t.watcher? w = some watcher) (hkind : kind.forget = watcher.kind.forget) :
    t.Shifts (t.setKind w kind) :=
  (Shift.setKind hw hkind).shifts

end Tree

open DataBinding.Tree (Shifts proceeds_shifts shifts_setKind)

/-- The telling of a change that has just been recorded: the watcher is that after the record, and
the heaps are those before and after it. -/
structure Telling.OfRecord (τ : Telling κ) (t u : Tree κ σ) : Prop where
  record : ∃ new, t.record τ.id new = some (some τ.change, u)
  watcher : u.watcher? τ.id = some τ.watcher
  seen : τ.seen = t.store.heap
  told : τ.told = u.store.heap

/-- The same watcher when it is marked as the last one that was dirty. -/
lemma Telling.OfRecord.watcher_marked {τ : Telling κ} {t u : Tree κ σ} (h : τ.OfRecord t u) :
    Tree.watcher? { u with lastDirty := some τ.id } τ.id = some τ.watcher :=
  h.watcher

/-- A member of a group calls no listener, and takes note of nothing further. -/
lemma Telling.call?_of_member {τ : Telling κ} {g : GroupId} (h : τ.watcher.kind.group? = some g) :
    τ.call? = none ∧ ∀ t : Tree κ σ, τ.prepared t = t := by
  obtain ⟨w, ⟨s, kind, byValue, active, last⟩, change, seen, told⟩ := τ
  cases kind with
  | member => exact ⟨rfl, fun _ => rfl⟩
  | _ => cases h

namespace Tree

/-- Another heap in the store. -/
def withHeap (t : Tree κ σ) (heap : Heap) : Tree κ σ :=
  { t with store := { t.store with heap } }

/-- A group is marked as scheduled, and its listener is queued unless it was so before. -/
def handOver (t : Tree κ σ) (s : ScopeId) (g : GroupId) : Tree κ σ :=
  if (t.scheduleGroup g).1 then (t.scheduleGroup g).2.queueAsync s (.group g)
  else (t.scheduleGroup g).2

variable {t u : Tree κ σ}

lemma shifts_withHeap (t : Tree κ σ) (heap : Heap) : t.Shifts (t.withHeap heap) :=
  proceeds_shifts.edit (.store t _)

lemma shifts_handOver (h : t.Shifts u) (s : ScopeId) (g : GroupId) :
    t.Shifts (u.handOver s g) ∨ ∃ v, t.Shifts v ∧ u.handOver s g = v.queueAsync s (.group g) := by
  have hscheduled : t.Shifts (u.scheduleGroup g).2 :=
    trans_of Shifts h (proceeds_shifts.edit (.modifyGroup u g _))
  unfold handOver
  split
  · exact .inr ⟨_, hscheduled, rfl⟩
  · exact .inl hscheduled

end Tree

namespace Engine

variable {E : Engine κ σ} {t u v : Tree κ σ}

/-! ## Calls -/

/-- A procedure is called at the first tree, and shifts after the call has returned lead to the
second. -/
def Calls (E : Engine κ σ) (procedure : κ) (how : Invocation) (t u : Tree κ σ) : Prop :=
  ∃ r v, runOn (E.invoke procedure how) (t.note (.called procedure how)) = some (r, v) ∧ v.Shifts u

variable {procedure : κ} {how : Invocation}

lemma Calls.trans (h : E.Calls procedure how t u) (hshifts : u.Shifts v) :
    E.Calls procedure how t v := by
  obtain ⟨r, w, hrun, hw⟩ := h
  exact ⟨r, w, hrun, trans_of Shifts hw hshifts⟩

lemma calls_of_call {r : Except Error Value} (h : runOn (E.call procedure how) t = some (r, u)) :
    E.Calls procedure how t u :=
  ⟨r, u, h, refl_of Shifts u⟩

lemma calls_of_discard {r : Except Error Unit}
    (h : runOn (discard (E.call procedure how)) t = some (r, u)) : E.Calls procedure how t u := by
  obtain ⟨r₁, hcall, -⟩ := Compute.runOn_discard_cases h
  exact calls_of_call hcall

lemma calls_of_contained {r : Except Error Unit}
    (h : runOn (E.contained (discard (E.call procedure how))) t = some (r, u)) :
    E.Calls procedure how t u := by
  obtain ⟨-, r₁, v, hcall, hend⟩ := runOn_contained_cases h
  rcases hend with ⟨-, rfl⟩ | ⟨e, -, herror⟩
  · exact calls_of_discard hcall
  · have hreported := leads_reportError proceeds_shifts.toPermits.grants e herror
    exact (calls_of_discard hcall).trans hreported

/-! ## Events -/

/-- A listener is called with an event, unless it was taken away, and its error is contained. -/
lemma hear_steps {e : EventId} {args : List Value} {l : ListenerId} {r : Except Error Unit}
    (h : runOn (E.hear e args l) t = some (r, u)) :
    r = .ok () ∧ ((t.listeners[l]?).any (·.active) = false ∧ u = t ∨
      ∃ listener, t.listeners[l]? = some listener ∧ listener.active = true ∧
        runOn (E.contained (discard (E.call listener.procedure (.event e args)))) t =
          some (.ok (), u)) := by
  rw [hear, Compute.runOn_read_bind] at h
  cases hl : t.listeners[l]? with
  | none =>
    rw [hl] at h
    cases h
    exact ⟨rfl, .inl ⟨rfl, rfl⟩⟩
  | some listener =>
    rw [hl] at h
    obtain ⟨s, event, procedure, active⟩ := listener
    cases active with
    | false =>
      cases h
      exact ⟨rfl, .inl ⟨rfl, rfl⟩⟩
    | true =>
      replace h : runOn (E.contained (discard (E.call procedure (.event e args)))) t =
        some (r, u) := h
      obtain ⟨rfl, -⟩ := runOn_contained_cases h
      exact ⟨rfl, .inr ⟨_, rfl, rfl, h⟩⟩

/-- A listener hears an event, unless it was taken away. -/
lemma hear_cases {e : EventId} {args : List Value} {l : ListenerId} {r : Except Error Unit}
    (h : runOn (E.hear e args l) t = some (r, u)) :
    r = .ok () ∧ ((t.listeners[l]?).any (·.active) = false ∧ u = t ∨
      ∃ listener, t.listeners[l]? = some listener ∧ listener.active = true ∧
        E.Calls listener.procedure (.event e args) t u) := by
  obtain ⟨hr, hmissed | ⟨listener, hl, hactive, hcall⟩⟩ := hear_steps h
  · exact ⟨hr, .inl hmissed⟩
  · exact ⟨hr, .inr ⟨listener, hl, hactive, calls_of_contained hcall⟩⟩

/-! ## Tasks -/

/-- The listener of a group is called, and then the group is not scheduled any more. -/
lemma callGroup_steps {s : ScopeId} {g : GroupId} {group : Group κ} {r : Except Error Unit}
    (hgroup : t.groups[g]? = some group) (h : runOn (E.callGroup s g) t = some (r, u)) :
    ∃ v, runOn (E.tell group.listener s (t.groupChange g group).1) (t.groupChange g group).2 =
      some (r, v) ∧ u = v.unscheduleGroup g := by
  rw [callGroup, Compute.runOn_read_bind, hgroup] at h
  dsimp only at h
  rw [Compute.runOn_alter_bind] at h
  obtain ⟨result, v, htell, hrest⟩ := Compute.runOn_attempt_bind_cases h
  rw [Compute.runOn_change_bind] at hrest
  cases result with
  | error e =>
    cases hrest
    exact ⟨v, htell, rfl⟩
  | ok =>
    cases hrest
    exact ⟨v, htell, rfl⟩

/-- The listener of a group is called, if there is the group. -/
lemma callGroup_cases {task : Task κ} {g : GroupId} {r : Except Error Unit}
    (hwork : task.work = .group g) (h : runOn (E.callGroup task.scope g) t = some (r, u)) :
    t.Shifts u ∨ ∃ v procedure how, t.Shifts v ∧ task.Calls v procedure how ∧
      E.Calls procedure how v u := by
  cases hgroup : t.groups[g]? with
  | none =>
    rw [callGroup, Compute.runOn_read_bind, hgroup] at h
    cases h
    exact .inl (refl_of Shifts t)
  | some group =>
    obtain ⟨v, htell, rfl⟩ := callGroup_steps hgroup h
    let settled : Group κ := { group with firstRun := false }
    have hkept : (t.groupChange g group).2.groups[g]? = some settled := by
      simp [settled, Tree.groupChange, Tree.modifyGroup, Array.getElem?_modify, hgroup]
    have hcalls : task.Calls (t.groupChange g group).2 settled.listener
        (.changed task.scope (t.groupChange g group).1) := .group hwork hkept
    have hend : v.Shifts (v.unscheduleGroup g) := proceeds_shifts.edit (.modifyGroup v g _)
    have hbegin : t.Shifts (t.groupChange g group).2 :=
      proceeds_shifts.edit (.modifyGroup t g _)
    exact .inr ⟨_, _, _, hbegin, hcalls, (calls_of_discard htell).trans hend⟩

/-- The listener of a group without members is called, unless the group was taken back. -/
lemma announce_cases {task : Task κ} {a : ℕ} {r : Except Error Unit}
    (hwork : task.work = .announcement a) (h : runOn (E.announce task.scope a) t = some (r, u)) :
    t.Shifts u ∨ ∃ v procedure how, t.Shifts v ∧ task.Calls v procedure how ∧
      E.Calls procedure how v u := by
  rw [announce, Compute.runOn_read_bind] at h
  cases hannouncement : t.announcements[a]? with
  | none =>
    rw [hannouncement] at h
    cases h
    exact .inl (refl_of Shifts t)
  | some announcement =>
    rw [hannouncement] at h
    dsimp only at h
    cases hcancelled : announcement.cancelled with
    | true =>
      rw [hcancelled] at h
      cases h
      exact .inl (refl_of Shifts t)
    | false =>
      rw [hcancelled, if_neg Bool.false_ne_true] at h
      let blank := t.store.heap.newArray #[]
      let told : Tree κ σ := { t with store := { t.store with heap := blank.2 } }
      have htell : runOn (E.tell announcement.listener task.scope
          ⟨.array blank.1, .array blank.1⟩) told = some (r, u) := h
      have hcalls : task.Calls told announcement.listener
          (.changed task.scope ⟨.array blank.1, .array blank.1⟩) :=
        .announcement hwork hannouncement hcancelled
      exact .inr ⟨told, _, _, proceeds_shifts.edit (.store t _), hcalls, calls_of_discard htell⟩

/-- A task calls a procedure at most once. -/
lemma perform_cases {task : Task κ} {r : Except Error Unit}
    (h : runOn (E.perform task.scope task.work) t = some (r, u)) :
    t.Shifts u ∨ ∃ v procedure how, t.Shifts v ∧ task.Calls v procedure how ∧
      E.Calls procedure how v u := by
  have hpermits := proceeds_shifts (κ := κ) (σ := σ) |>.toPermits
  cases hwork : task.work with
  | procedure body =>
    rw [hwork] at h
    exact .inr ⟨t, body, _, refl_of Shifts t, .procedure hwork, calls_of_discard h⟩
  | group g =>
    rw [hwork] at h
    exact callGroup_cases hwork h
  | announcement a =>
    rw [hwork] at h
    exact announce_cases hwork h
  | settle w =>
    rw [hwork] at h
    exact .inl (Leads.change (fun t => hpermits.settle t w) h)
  | rearm =>
    rw [hwork] at h
    exact .inl (Leads.change (fun t => hpermits.edit (.armApply t)) h)

/-- A task that is run calls a procedure at most once. -/
lemma run_cases {task : Task κ} {r : Except Error Unit}
    (h : runOn (E.contained (E.perform task.scope task.work)) t = some (r, u)) :
    t.Shifts u ∨ ∃ v procedure how, t.Shifts v ∧ task.Calls v procedure how ∧
      E.Calls procedure how v u := by
  obtain ⟨-, r₁, v, hperform, hend⟩ := runOn_contained_cases h
  have hend : v.Shifts u := by
    rcases hend with ⟨-, rfl⟩ | ⟨e, -, herror⟩
    · exact refl_of Shifts u
    · exact leads_reportError proceeds_shifts.toPermits.grants e herror
  rcases perform_cases hperform with hshifts | ⟨q, procedure, how, hq, hcalls, hcall⟩
  · exact .inl (trans_of Shifts hshifts hend)
  · exact .inr ⟨q, procedure, how, hq, hcalls, hcall.trans hend⟩

/-! ## Watchers -/

/-- To observe what is watched calls the procedure that computes it, if there is one. -/
lemma observe_cases {w : WatcherId} {watcher : Watcher κ} {r : Except Error Value}
    (hw : t.watcher? w = some watcher)
    (h : runOn (E.observe watcher.scope w watcher.kind) t = some (r, u)) :
    t.Shifts u ∨ ∃ procedure, watcher.kind.watch? = some procedure ∧
      E.Calls procedure (.watch watcher.scope) t u := by
  have hpermits := proceeds_shifts (κ := κ) (σ := σ) |>.toPermits
  cases hkind : watcher.kind with
  | procedure watch listener =>
    rw [hkind] at h
    exact .inr ⟨watch, rfl, calls_of_call h⟩
  | member watch g index =>
    rw [hkind] at h
    exact .inr ⟨watch, rfl, calls_of_call h⟩
  | collection watch listener state =>
    rw [hkind] at h
    refine .inr ⟨watch, rfl, ?_⟩
    rcases runOn_bind_cases h with ⟨_, h₁, -⟩ | ⟨v, t₁, h₁, h₂⟩
    · exact calls_of_call h₁
    · cases h₂
      exact (calls_of_call h₁).trans (related_noticeCollection
        (fun hw _ hkind => shifts_setKind hw hkind) t₁ w v)
  | inputs e listener memo =>
    rw [hkind] at h
    exact .inl (related_observeInputs hpermits.grants hw hkind
      (fun hw hkind => shifts_setKind hw hkind) h)
  | expression e listener =>
    rw [hkind] at h
    exact .inl (leads_evaluate hpermits _ e none h)
  | constant e listener =>
    rw [hkind] at h
    exact .inl (leads_evaluate hpermits _ e none h)
  | oneTime e listener reported =>
    rw [hkind] at h
    exact .inl (leads_evaluate hpermits _ e none h)

/-- To write an element of an array of a group fails, or changes the array. -/
lemma writeMember_cases {a index : ℕ} {v : Value} {r : Except Error Unit}
    (h : runOn (writeMember a index v) t = some (r, u)) :
    (∃ e, writeItem (t.store.heap.items a) index v = .error e ∧ r = .error e ∧ u = t) ∨
      ∃ items, writeItem (t.store.heap.items a) index v = .ok items ∧ r = .ok () ∧
        u = t.withHeap (t.store.heap.setItems a items) := by
  rw [writeMember, Compute.runOn_read_bind] at h
  cases hwrite : writeItem (t.store.heap.items a) index v with
  | error e =>
    rw [hwrite] at h
    cases h
    exact .inl ⟨e, rfl, rfl, rfl⟩
  | ok items =>
    rw [hwrite] at h
    cases h
    exact .inr ⟨items, rfl, rfl, rfl⟩

/-- A member of a group hands its change on: both arrays are written, and the listener is queued
unless it is already.  If one of the arrays cannot be written the change is not handed on. -/
lemma reactMember_steps {s : ScopeId} {g : GroupId} {index : ℕ} {change : Change} {group : Group κ}
    {r : Except Error Unit} (hgroup : t.groups[g]? = some group)
    (h : runOn (reactMember s g index change) t = some (r, u)) :
    (∃ e heap, r = .error e ∧ u = t.withHeap heap ∧
      (writeItem (t.store.heap.items group.newValues) index change.new = .error e ∨ ∃ news,
        writeItem (t.store.heap.items group.newValues) index change.new = .ok news ∧
        heap = t.store.heap.setItems group.newValues news ∧
        writeItem (heap.items group.oldValues) index change.old = .error e)) ∨ ∃ news olds heap,
      writeItem (t.store.heap.items group.newValues) index change.new = .ok news ∧
      heap = t.store.heap.setItems group.newValues news ∧
      writeItem (heap.items group.oldValues) index change.old = .ok olds ∧ r = .ok () ∧
      u = (t.withHeap (heap.setItems group.oldValues olds)).handOver s g := by
  rw [reactMember, Compute.runOn_read_bind, hgroup] at h
  rcases runOn_bind_cases h with ⟨e, h₁, rfl⟩ | ⟨_, t₁, h₁, h⟩
  · rcases writeMember_cases h₁ with ⟨_, hfailed, hr, rfl⟩ | ⟨_, -, hr, -⟩
    · cases hr
      exact .inl ⟨e, _, rfl, rfl, .inl hfailed⟩
    · cases hr
  rcases writeMember_cases h₁ with ⟨_, -, hr, -⟩ | ⟨news, hnews, -, rfl⟩
  · cases hr
  rcases runOn_bind_cases h with ⟨e, h₂, rfl⟩ | ⟨_, t₂, h₂, h⟩
  · rcases writeMember_cases h₂ with ⟨_, hfailed, hr, rfl⟩ | ⟨_, -, hr, -⟩
    · cases hr
      exact .inl ⟨e, _, rfl, rfl, .inr ⟨news, hnews, rfl, hfailed⟩⟩
    · cases hr
  rcases writeMember_cases h₂ with ⟨_, -, hr, -⟩ | ⟨olds, holds, -, rfl⟩
  · cases hr
  refine .inr ⟨news, olds, _, hnews, rfl, holds, ?_⟩
  rw [Compute.runOn_alter_bind] at h
  split at h
  · next hfirst =>
    cases h
    exact ⟨rfl, (if_pos hfirst).symm⟩
  · next hfirst =>
    cases h
    exact ⟨rfl, (if_neg hfirst).symm⟩

/-- A member of a group hands its change on at most once. -/
lemma reactMember_cases {s : ScopeId} {g : GroupId} {index : ℕ} {change : Change}
    {r : Except Error Unit} (h : runOn (reactMember s g index change) t = some (r, u)) :
    t.Shifts u ∨ ∃ v, t.Shifts v ∧ u = v.queueAsync s (.group g) := by
  cases hgroup : t.groups[g]? with
  | none =>
    rw [reactMember, Compute.runOn_read_bind, hgroup] at h
    cases h
    exact .inl (refl_of Shifts t)
  | some group =>
    rcases reactMember_steps hgroup h with
      ⟨_, heap, -, rfl, -⟩ | ⟨_, olds, heap, -, -, -, -, rfl⟩
    · exact .inl (Tree.shifts_withHeap t heap)
    · exact Tree.shifts_handOver (Tree.shifts_withHeap t _) s g

/-- What a watcher does about a change: it has the host told, or it is a member of a group and hands
the change on. -/
lemma notify_cases {τ : Telling κ} {r : Except Error Unit}
    (hw : t.watcher? τ.id = some τ.watcher) (htold : τ.told = t.store.heap)
    (h : runOn (E.notify τ.id τ.change) t = some (r, u)) :
    (∃ procedure how, τ.call? = some (procedure, how) ∧
      E.Calls procedure how (τ.prepared t) u) ∨
    ∃ g, τ.watcher.kind.group? = some g ∧ (t.Shifts u ∨
      ∃ v, t.Shifts v ∧ u = v.queueAsync τ.watcher.scope (.group g)) := by
  obtain ⟨w, ⟨s, kind, byValue, active, last⟩, change, seen, told⟩ := τ
  have hpermits := proceeds_shifts (κ := κ) (σ := σ) |>.toPermits
  dsimp only at hw htold
  subst htold
  rw [notify, Compute.runOn_read_bind, hw] at h
  replace h : runOn (E.react s w change kind) t = some (r, u) := h
  cases kind with
  | procedure | expression | inputs => exact .inl ⟨_, _, rfl, calls_of_discard h⟩
  | member watch g index => exact .inr ⟨g, rfl, reactMember_cases h⟩
  | collection watch listener state =>
    rw [react, Compute.runOn_alter_bind] at h
    exact .inl ⟨_, _, rfl, calls_of_discard h⟩
  | constant e listener =>
    obtain ⟨result, v, htell, hrest⟩ := Compute.runOn_attempt_bind_cases h
    refine .inl ⟨_, _, rfl, (calls_of_discard htell).trans ?_⟩
    refine Leads.bind (R := Shifts) ?_ (fun _ => .ofExcept result) hrest
    exact .change fun t => hpermits.edit (.removeWatcher t w)
  | oneTime e listener reported =>
    replace h : runOn (E.reactOneTime s w e listener change) t = some (r, u) := h
    rw [reactOneTime, Compute.runOn_change_bind] at h
    obtain ⟨result, v, htell, hrest⟩ := Compute.runOn_attempt_bind_cases h
    refine .inl ⟨_, _, rfl, (calls_of_discard htell).trans ?_⟩
    refine Leads.bind (R := Shifts) (.read _) (fun settled => ?_) hrest
    cases settled with
    | true =>
      refine (Leads.change fun t => ?_).bind fun _ => .ofExcept result
      exact hpermits.edit (.postpone t s (by rfl))
    | false => exact .ofExcept result

/-- Nothing more is done, or an error is handed to the host. -/
def Closes (E : Engine κ σ) (t u : Tree κ σ) : Prop :=
  u = t ∨ ∃ e, runOn (E.reportError e) t = some (.ok (), u)

lemma Closes.related {R : Tree κ σ → Tree κ σ → Prop} [IsPreorder (Tree κ σ) R] (hR : Grants R)
    (h : E.Closes t u) : R t u := by
  rcases h with rfl | ⟨e, h⟩
  · exact refl_of R u
  · exact leads_reportError hR e h

lemma Closes.shifts (h : E.Closes t u) : t.Shifts u :=
  h.related proceeds_shifts.toPermits.grants

/-- A routine that has ended is contained: its error is handed to the host. -/
def Contains (E : Engine κ σ) (r : Except Error Unit) (t u : Tree κ σ) : Prop :=
  (r = .ok () ∧ u = t) ∨ ∃ e, r = .error e ∧ runOn (E.reportError e) t = some (.ok (), u)

lemma Contains.closes {r : Except Error Unit} (h : E.Contains r t u) : E.Closes t u := by
  rcases h with ⟨-, rfl⟩ | ⟨e, -, herror⟩
  · exact .inl rfl
  · exact .inr ⟨e, herror⟩

/-- A visit of an active watcher observes what is watched.  An error of that is handed to the host.
A value is taken in, and if it is a change the watcher does something about it. -/
lemma visit_steps {w : WatcherId} {r : Except Error Findings}
    (h : runOn (E.visitWatcher w) t = some (r, u)) :
    (t.isActive w = false ∧ u = t) ∨ t.isActive w = true ∧ ∃ watcher r₁ v,
      t.watcher? w = some watcher ∧
      runOn (E.observe watcher.scope w watcher.kind) (t.note (.checked w)) = some (r₁, v) ∧
      ((∃ e, r₁ = .error e ∧ runOn (E.reportError e) v = some (.ok (), u)) ∨
        ∃ new, r₁ = .ok new ∧ (v.record w new = some (none, u) ∨ ∃ change v₁ v₂ r₂,
          v.record w new = some (some change, v₁) ∧
          runOn (E.notify w change) { v₁ with lastDirty := some w } = some (r₂, v₂) ∧
          E.Contains r₂ v₂ u)) := by
  rcases visitWatcher_cases h with ⟨hinactive, -, rfl⟩ | ⟨hactive, result, v, hcheck, hrest⟩
  · exact .inl ⟨hinactive, rfl⟩
  refine .inr ⟨hactive, ?_⟩
  rcases check_cases hcheck with ⟨hw, -, -⟩ | ⟨watcher, hw, hobserved⟩
  · simp [Tree.isActive, hw] at hactive
  rcases hobserved with ⟨e, rfl, hfailed⟩ | ⟨new, v₀, change, rfl, hnew, hrecord⟩
  · refine ⟨watcher, _, v, hw, hfailed, .inl ?_⟩
    rcases hrest with ⟨e', he, -, herror⟩ | ⟨h, -⟩ | ⟨_, h, -⟩
    · cases he
      exact ⟨e, rfl, herror⟩
    · cases h
    · cases h
  · refine ⟨watcher, _, v₀, hw, hnew, .inr ⟨new, rfl, ?_⟩⟩
    rcases hrest with ⟨_, h, -⟩ | ⟨hclean, -, rfl⟩ | ⟨c, hdirty, -, hnotify⟩
    · cases h
    · cases hclean
      exact .inl hrecord
    · cases hdirty
      obtain ⟨-, r₂, v₂, hnotified, hend⟩ := runOn_contained_cases hnotify
      exact .inr ⟨c, v, v₂, r₂, hrecord, hnotified, hend⟩

/-- A visit of an active watcher observes what is watched.  After that an error is handed to the
host at most, or a change is recorded and the watcher does something about it first. -/
lemma visit_parts {w : WatcherId} {r : Except Error Findings}
    (h : runOn (E.visitWatcher w) t = some (r, u)) :
    (t.isActive w = false ∧ u = t) ∨ t.isActive w = true ∧ ∃ watcher r₁ v,
      t.watcher? w = some watcher ∧
      runOn (E.observe watcher.scope w watcher.kind) (t.note (.checked w)) = some (r₁, v) ∧
      (E.Closes v u ∨ ∃ (τ : Telling κ) (v₁ v₂ : Tree κ σ) (r₂ : Except Error Unit), τ.id = w ∧
        τ.OfRecord v v₁ ∧
        runOn (E.notify τ.id τ.change) { v₁ with lastDirty := some τ.id } = some (r₂, v₂) ∧
        E.Closes v₂ u) := by
  refine (visit_steps h).imp_right fun ⟨hactive, watcher, r₁, v, hw, hobserve, hrest⟩ =>
    ⟨hactive, watcher, r₁, v, hw, hobserve, ?_⟩
  rcases hrest with ⟨e, -, herror⟩ | ⟨new, -, hclean | ⟨change, v₁, v₂, r₂, hrecord, hnotify, hend⟩⟩
  · exact .inl (.inr ⟨e, herror⟩)
  · rcases Tree.record_cases hclean with ⟨-, rfl⟩ | ⟨_, _, _, h, -⟩
    · exact .inl (.inl rfl)
    · cases h
  · obtain ⟨watcher', frozen, -, -, -, hw', -⟩ := Tree.record_some_cases hrecord
    let τ : Telling κ :=
      ⟨w, { watcher' with last := some frozen }, change, v.store.heap, v₁.store.heap⟩
    exact .inr ⟨τ, v₁, v₂, r₂, rfl, ⟨⟨new, hrecord⟩, hw', rfl, rfl⟩, hnotify, hend.closes⟩

end Engine

end DataBinding
