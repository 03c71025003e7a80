import DataBinding.Proofs.Tracks

/-!
# What a run retains of groups and listeners

Watchers, groups, announcements and listeners keep their places for good, and one that was taken
away does not come back.  The members of a group are those that it was made with.  `Tree.Retains`
says so between two trees, and a track goes along with it (`Juncture.Track.retains`).

The tasks that wait to call the listener of a group are counted apart (`Queues.waiting`).  A shift
leaves their number as it is.
-/

namespace DataBinding

open Compute (Leads runOn runOn_bind_cases)
open Juncture (Next Track)
open DataBinding.Tree (Shifts)

variable {κ σ : Type}

/-! ## Waiting tasks -/

/-- The number of tasks that wait to call the listener of a group. -/
def Queues.waiting (qs : Queues κ) (g : GroupId) : ℕ :=
  qs.async.countP (·.work.group? = some g) + qs.apply.countP (·.work.group? = some g) +
    qs.postDigest.countP (·.work.group? = some g)

namespace Queues

variable {g : GroupId}

lemma waiting_push (qs : Queues κ) (q : Queue) (s : ScopeId) (work : Work κ) :
    (qs.push q s work).waiting g = qs.waiting g + if work.group? = some g then 1 else 0 := by
  cases q <;> simp [waiting, push, setTasks, tasks, List.countP_append, List.countP_cons] <;> omega

lemma waiting_setTasks (qs : Queues κ) {q : Queue} {task : Task κ} {rest : List (Task κ)}
    (h : qs.tasks q = task :: rest) : qs.waiting g =
      (qs.setTasks q rest).waiting g + if task.work.group? = some g then 1 else 0 := by
  cases q <;> simp only [tasks] at h <;> simp [waiting, setTasks, h, List.countP_cons] <;> omega

end Queues

namespace Tree

variable {t u v : Tree κ σ} {g : GroupId} {w : WatcherId}

lemma waiting_of_dequeue? {q : Queue} {task : Task κ} (h : t.dequeue? q = some (task, u)) :
    t.queues.waiting g = u.queues.waiting g + if task.work.group? = some g then 1 else 0 := by
  have htasks := tasks_of_dequeue? h
  obtain ⟨rest, rfl⟩ := eq_of_dequeue? h
  have hrest : (t.queues.setTasks q rest).tasks q = rest := Queues.tasks_setTasks_self ..
  exact Queues.waiting_setTasks _ (htasks.trans (congrArg _ hrest))

lemma waiting_queueAsync (t : Tree κ σ) (s : ScopeId) (work : Work κ) :
    (t.queueAsync s work).queues.waiting g =
      t.queues.waiting g + if work.group? = some g then 1 else 0 := by
  obtain ⟨deferral, h⟩ := queueAsync_eq t s work
  rw [h]
  exact Queues.waiting_push ..

/-! ## Members -/

/-- The group that a watcher is a member of, if it is. -/
def groupOf? (t : Tree κ σ) (w : WatcherId) : Option GroupId :=
  (t.watcher? w).bind (·.kind.group?)

lemma lt_size_of_groupOf? (h : t.groupOf? w = some g) : w < t.watchers.size := by
  obtain ⟨watcher, hw, -⟩ := Option.bind_eq_some_iff.1 h
  exact lt_size_of_watcher? hw

lemma group?_of_forget {a b : WatchKind κ} (h : a.forget = b.forget) : a.group? = b.group? := by
  cases a <;> cases b <;> simp_all [WatchKind.forget, WatchKind.group?]

/-- A watcher stays in its group. -/
lemma Later.groupOf?_eq (h : t.Later u) (hw : w < t.watchers.size) :
    u.groupOf? w = t.groupOf? w := by
  have hwatcher : t.watcher? w = some t.watchers[w] := Array.getElem?_eq_getElem hw
  obtain ⟨watcher', hw', hsucceeds⟩ := h.watcher w _ hwatcher
  rw [groupOf?, groupOf?, hwatcher, hw']
  exact group?_of_forget hsucceeds.kind

lemma groupOf?_addWatcher (t : Tree κ σ) (s : ScopeId) (kind : WatchKind κ) (byValue : Bool) :
    (t.addWatcher s kind byValue).2.groupOf? w =
      if w = t.watchers.size then kind.group? else t.groupOf? w := by
  simp only [groupOf?, watcher?, addWatcher, modifyScope, Array.getElem?_push]
  split <;> rfl

/-- What the registration of members changes: they are new, and they alone are new members. -/
lemma addMembers_cases (t : Tree κ σ) (s : ScopeId) (g : GroupId) (index : ℕ) (watches : List κ) :
    ∃ scopes watchers lastDirty, (t.addMembers s g index watches).2 =
        { t with scopes, watchers, lastDirty } ∧
      (t.addMembers s g index watches).1.length = watches.length ∧
      ∀ w, (t.addMembers s g index watches).2.groupOf? w =
        if w ∈ (t.addMembers s g index watches).1 then some g else t.groupOf? w := by
  induction watches generalizing t index with
  | nil => exact ⟨_, _, _, rfl, rfl, fun w => by simp [addMembers]⟩
  | cons watch rest ih =>
    let first := t.addWatcher s (.member watch g index) false
    obtain ⟨scopes, watchers, lastDirty, heq, hlength, hgroup⟩ := ih first.2 (index + 1)
    refine ⟨scopes, watchers, lastDirty, heq, congrArg (· + 1) hlength, fun w => ?_⟩
    have hfirst : first.2.groupOf? w = if w = first.1 then some g else t.groupOf? w :=
      groupOf?_addWatcher ..
    have hws : (t.addMembers s g index (watch :: rest)).1 =
        first.1 :: (first.2.addMembers s g (index + 1) rest).1 := rfl
    rw [hws]
    refine (hgroup w).trans ?_
    rw [hfirst]
    by_cases hw : w = first.1 <;> simp [hw]

/-! ## Shifts -/

lemma Edit.grows (h : t.Edit u) : t.Grows u :=
  h.related (fun hact _ _ => hact.grows) fun t s work =>
    trans_of Grows (Act.enqueue t Queue.noConfusion s work).grows (Act.armApply _).grows

lemma Shift.grows (h : t.Shift u) : t.Grows u := by
  cases h with
  | edit h => exact h.grows
  | tick h => exact h.grows
  | beginDestroy h => exact (Drift.beginDestroy h).grows
  | tearDown s => exact (Drift.tearDown t s).grows
  | setKind hw hkind => exact (Drift.setKind hw hkind).grows
  | pass s => exact (Drift.pass t s).grows
  | enter h => exact (Drift.enter h).grows
  | leave phase => exact (Drift.leave t phase).grows
  | start => exact (Drift.start t).grows

/-- No edit queues the listener of a group. -/
lemma Edit.waiting_eq (h : t.Edit u) : u.queues.waiting g = t.queues.waiting g := by
  cases h with
  | formGroup s watches listener =>
    obtain ⟨_, _, _, heq, -⟩ := (t.addGroup listener watches.length).2.addMembers_cases s
      (t.addGroup listener watches.length).1 0 watches
    exact congrArg (·.queues.waiting g) heq
  | @queueAsync s work hwork => simp [waiting_queueAsync, hwork]
  | @queueApply s work hwork =>
    obtain ⟨_, _, h⟩ := armApply_eq (t.enqueue .apply s work)
    rw [Tree.queueApply, h]
    simp [enqueue, note, Queues.waiting_push, hwork]
  | @postpone s work hwork => simp [enqueue, note, Queues.waiting_push, hwork]
  | armApply =>
    obtain ⟨_, _, h⟩ := armApply_eq t
    rw [h]
  | removeWatcher w =>
    obtain ⟨_, _, _, h, -⟩ := removeWatcher_eq t w
    rw [h]
  | removeListener l =>
    obtain ⟨_, _, h⟩ := removeListener_eq t l
    rw [h]
  | _ => rfl

lemma Shift.waiting_eq (h : t.Shift u) : u.queues.waiting g = t.queues.waiting g := by
  cases h with
  | edit h => exact h.waiting_eq
  | tick h => rcases h.eq_or_eq with ⟨_, _, rfl⟩ | ⟨_, _, rfl⟩ <;> rfl
  | tearDown s =>
    obtain ⟨_, h⟩ := tearDown_eq_scopes t s
    rw [h]
  | enter h =>
    obtain rfl := eq_of_enter h
    rfl
  | start =>
    obtain ⟨_, _, h⟩ := cancelApply_eq { t with lastDirty := none }
    rw [h]
  | _ => rfl

lemma Shifts.waiting_eq (h : t.Shifts u) : u.queues.waiting g = t.queues.waiting g := by
  induction h with
  | refl => rfl
  | tail _ hshift ih => exact hshift.waiting_eq.trans ih

/-! ## What is retained -/

/-- What the second tree retains of the first. -/
structure Retains (t u : Tree κ σ) : Prop where
  later : t.Later u
  groups_le : t.groups.size ≤ u.groups.size
  recruit : ∀ {w : WatcherId} {g : GroupId}, t.watchers.size ≤ w → u.groupOf? w = some g →
    t.groups.size ≤ g ∧ g < u.groups.size
  announcement : ∀ {a : ℕ} {x : Announcement κ}, t.announcements[a]? = some x →
    ∃ y, u.announcements[a]? = some y ∧ (x.cancelled = true → y.cancelled = true)
  listener : ∀ {l : ListenerId} {x : Listener κ}, t.listeners[l]? = some x →
    ∃ y, u.listeners[l]? = some y ∧ (y.active = true → x.active = true)

namespace Retains

/-- Where no watcher is registered there is no new member. -/
lemma of_groups (hlater : t.Later u) (hwatchers : u.watchers.size = t.watchers.size)
    (hgroups : t.groups.size ≤ u.groups.size)
    (hannouncement : ∀ {a : ℕ} {x : Announcement κ}, t.announcements[a]? = some x →
      ∃ y, u.announcements[a]? = some y ∧ (x.cancelled = true → y.cancelled = true))
    (hlistener : ∀ {l : ListenerId} {x : Listener κ}, t.listeners[l]? = some x →
      ∃ y, u.listeners[l]? = some y ∧ (y.active = true → x.active = true)) : Retains t u where
  later := hlater
  groups_le := hgroups
  recruit hw hg := absurd (lt_size_of_groupOf? hg) (not_lt.2 (hwatchers.le.trans hw))
  announcement := hannouncement
  listener := hlistener

lemma of_same (hlater : t.Later u) (hwatchers : u.watchers.size = t.watchers.size)
    (hgroups : u.groups.size = t.groups.size) (hannouncements : u.announcements = t.announcements)
    (hlisteners : u.listeners = t.listeners) : Retains t u :=
  of_groups hlater hwatchers hgroups.ge (fun h => ⟨_, hannouncements ▸ h, id⟩)
    fun h => ⟨_, hlisteners ▸ h, id⟩

instance : IsPreorder (Tree κ σ) Retains where
  refl t := of_same (refl_of Grows t).later rfl rfl rfl rfl
  trans t u v h₁ h₂ :=
    { later := h₁.later.trans h₂.later
      groups_le := h₁.groups_le.trans h₂.groups_le
      recruit := fun {w g} hw hg => by
        by_cases hwu : w < u.watchers.size
        · rw [h₂.later.groupOf?_eq hwu] at hg
          obtain ⟨hle, hlt⟩ := h₁.recruit hw hg
          exact ⟨hle, hlt.trans_le h₂.groups_le⟩
        · obtain ⟨hle, hlt⟩ := h₂.recruit (not_lt.1 hwu) hg
          exact ⟨h₁.groups_le.trans hle, hlt⟩
      announcement := fun h => by
        obtain ⟨y, hy, hxy⟩ := h₁.announcement h
        obtain ⟨z, hz, hyz⟩ := h₂.announcement hy
        exact ⟨z, hz, hyz ∘ hxy⟩
      listener := fun h => by
        obtain ⟨y, hy, hxy⟩ := h₁.listener h
        obtain ⟨z, hz, hyz⟩ := h₂.listener hy
        exact ⟨z, hz, hxy ∘ hyz⟩ }

/-- The members of a group are those that it was made with. -/
lemma groupOf?_of_lt (h : t.Retains u) (hg : g < t.groups.size) (hw : u.groupOf? w = some g) :
    t.groupOf? w = some g := by
  by_cases hlt : w < t.watchers.size
  · rw [← h.later.groupOf?_eq hlt]
    exact hw
  · exact absurd (h.recruit (not_lt.1 hlt) hw).1 (not_le.2 hg)

end Retains

lemma getElem?_push_of_some {β : Type} {a : Array β} {i : ℕ} {x : β} (h : a[i]? = some x) (y : β) :
    (a.push y)[i]? = some x := by
  obtain ⟨hi, -⟩ := Array.getElem?_eq_some_iff.1 h
  rw [Array.getElem?_push, if_neg hi.ne]
  exact h

lemma retains_addWatcher (t : Tree κ σ) (s : ScopeId) {kind : WatchKind κ} (byValue : Bool)
    (hkind : kind.group? = none) : t.Retains (t.addWatcher s kind byValue).2 where
  later := later_addWatcher t s kind byValue
  groups_le := le_rfl
  recruit {w g} hw hg := by
    rw [groupOf?_addWatcher] at hg
    split at hg
    · cases hkind.symm.trans hg
    · exact absurd (lt_size_of_groupOf? hg) (not_lt.2 hw)
  announcement h := ⟨_, h, id⟩
  listener h := ⟨_, h, id⟩

lemma retains_formGroup (t : Tree κ σ) (s : ScopeId) (watches : List κ) (listener : κ) :
    t.Retains (t.formGroup s watches listener).2 := by
  obtain ⟨scopes, watchers, lastDirty, heq, -, hgroup⟩ :=
    (t.addGroup listener watches.length).2.addMembers_cases s t.groups.size 0 watches
  replace heq : (t.formGroup s watches listener).2 =
    { (t.addGroup listener watches.length).2 with scopes, watchers, lastDirty } := heq
  have hsize : (t.formGroup s watches listener).2.groups.size = t.groups.size + 1 := by
    rw [heq]
    exact Array.size_push ..
  exact
    { later := (Edit.formGroup t s watches listener).grows.later
      groups_le := by omega
      recruit := fun {w g} hw hg => by
        rw [show (t.formGroup s watches listener).2.groupOf? w = _ from hgroup w] at hg
        split at hg
        · cases hg
          exact ⟨le_rfl, lt_of_lt_of_eq (Nat.lt_succ_self _) hsize.symm⟩
        · exact absurd (lt_size_of_groupOf? hg) (not_lt.2 hw)
      announcement := fun h => ⟨_, by rw [heq]; exact h, id⟩
      listener := fun h => ⟨_, by rw [heq]; exact h, id⟩ }

lemma retains_cancelAnnouncement (t : Tree κ σ) (a : ℕ) : t.Retains (t.cancelAnnouncement a) := by
  refine .of_groups (Edit.cancelAnnouncement t a).grows.later rfl le_rfl (fun {b x} h => ?_)
    fun h => ⟨_, h, id⟩
  by_cases hab : a = b
  · refine ⟨{ x with cancelled := true }, ?_, fun _ => rfl⟩
    simp [cancelAnnouncement, Array.getElem?_modify, hab, h]
  · refine ⟨x, ?_, id⟩
    simp [cancelAnnouncement, Array.getElem?_modify, hab, h]

lemma retains_removeListener (t : Tree κ σ) (l : ListenerId) : t.Retains (t.removeListener l) := by
  have hlater := (Edit.removeListener t l).grows.later
  obtain ⟨scopes, listeners, heq⟩ := removeListener_eq t l
  refine .of_groups hlater (by rw [heq]) (by rw [heq]) (fun h => ⟨_, by rw [heq]; exact h, id⟩)
    fun {k x} h => ?_
  unfold removeListener
  split
  · by_cases hlk : l = k
    · refine ⟨{ x with active := false }, ?_, fun h => nomatch h⟩
      simp [Array.getElem?_modify, hlk, h]
    · refine ⟨x, ?_, id⟩
      simp [Array.getElem?_modify, hlk, h]
  · exact ⟨x, h, id⟩

lemma Edit.retains (h : t.Edit u) : t.Retains u := by
  have hlater := h.grows.later
  cases h with
  | modifyGroup g f => exact .of_same hlater rfl (Array.size_modify ..) rfl rfl
  | formGroup s watches listener => exact retains_formGroup t s watches listener
  | addAnnouncement listener =>
    exact .of_groups hlater rfl le_rfl (fun h => ⟨_, getElem?_push_of_some h _, id⟩)
      fun h => ⟨_, h, id⟩
  | cancelAnnouncement a => exact retains_cancelAnnouncement t a
  | @queueAsync s work hwork =>
    obtain ⟨_, h⟩ := queueAsync_eq t s work
    rw [h] at hlater ⊢
    exact .of_same hlater rfl rfl rfl rfl
  | @queueApply s work hwork =>
    obtain ⟨_, _, h⟩ := armApply_eq (t.enqueue .apply s work)
    rw [Tree.queueApply, h] at hlater ⊢
    exact .of_same hlater rfl rfl rfl rfl
  | armApply =>
    obtain ⟨_, _, h⟩ := armApply_eq t
    rw [h] at hlater ⊢
    exact .of_same hlater rfl rfl rfl rfl
  | addWatcher s byValue hkind => exact retains_addWatcher t s byValue hkind
  | removeWatcher w =>
    obtain ⟨_, _, _, h, hsize⟩ := removeWatcher_eq t w
    rw [h] at hlater ⊢
    exact .of_same hlater hsize rfl rfl rfl
  | addListener s event procedure =>
    exact .of_groups hlater rfl le_rfl (fun h => ⟨_, h, id⟩)
      fun h => ⟨_, getElem?_push_of_some h _, id⟩
  | removeListener l => exact retains_removeListener t l
  | _ => exact .of_same hlater rfl rfl rfl rfl

lemma Shift.retains (h : t.Shift u) : t.Retains u := by
  have hlater := h.grows.later
  cases h with
  | edit h => exact h.retains
  | tick h =>
    rcases h.eq_or_eq with ⟨_, _, rfl⟩ | ⟨_, _, rfl⟩ <;> exact .of_same hlater rfl rfl rfl rfl
  | tearDown s =>
    obtain ⟨_, h⟩ := tearDown_eq_scopes t s
    rw [h] at hlater ⊢
    exact .of_same hlater rfl rfl rfl rfl
  | setKind => exact .of_same hlater (Array.size_modify ..) rfl rfl rfl
  | enter h =>
    obtain rfl := eq_of_enter h
    exact .of_same hlater rfl rfl rfl rfl
  | start =>
    obtain ⟨_, _, h⟩ := cancelApply_eq { t with lastDirty := none }
    rw [h] at hlater ⊢
    exact .of_same hlater rfl rfl rfl rfl
  | _ => exact .of_same hlater rfl rfl rfl rfl

lemma Shifts.retains (h : t.Shifts u) : t.Retains u := h.related Shift.retains

lemma retains_note (t : Tree κ σ) (step : Step κ) : t.Retains (t.note step) :=
  .of_same (Later.of_frame rfl) rfl rfl rfl rfl

lemma retains_of_dequeue? {q : Queue} {task : Task κ} (h : t.dequeue? q = some (task, u)) :
    t.Retains u := by
  obtain ⟨_, rfl⟩ := eq_of_dequeue? h
  exact .of_same (Later.of_frame rfl) rfl rfl rfl rfl

lemma retains_queueAsync (t : Tree κ σ) (s : ScopeId) (work : Work κ) :
    t.Retains (t.queueAsync s work) := by
  have hlater := (Act.queueAsync t s work).grows.later
  obtain ⟨_, h⟩ := queueAsync_eq t s work
  rw [h] at hlater ⊢
  exact .of_same hlater rfl rfl rfl rfl

lemma retains_of_record {w : WatcherId} {new : Value} {change : Option Change}
    (h : t.record w new = some (change, u)) : t.Retains { u with lastDirty := some w } := by
  have hframe := frame_record h
  have hlater : t.Later { u with lastDirty := some w } := .of_frame (hframe ▸ rfl)
  rcases record_cases h with ⟨-, rfl⟩ | ⟨_, _, _, -, rfl⟩
  · exact .of_same hlater rfl rfl rfl rfl
  · exact .of_same hlater (Array.size_modify ..) rfl rfl rfl

end Tree

namespace Telling

variable {τ : Telling κ} {t u : Tree κ σ}

lemma OfRecord.retains (h : τ.OfRecord t u) : t.Retains { u with lastDirty := some τ.id } := by
  obtain ⟨new, hnew⟩ := h.record
  exact Tree.retains_of_record hnew

/-- A watcher does not change its group when it records a change. -/
lemma OfRecord.groupOf?_eq (h : τ.OfRecord t u) : t.groupOf? τ.id = τ.watcher.kind.group? := by
  obtain ⟨new, hnew⟩ := h.record
  obtain ⟨watcher, frozen, hw, -, -, hrecorded, -⟩ := Tree.record_some_cases hnew
  have hwatcher := Option.some.inj (h.watcher.symm.trans hrecorded)
  rw [Tree.groupOf?, hw, hwatcher]
  rfl

lemma OfRecord.waiting_eq (h : τ.OfRecord t u) (g : GroupId) :
    u.queues.waiting g = t.queues.waiting g := by
  obtain ⟨new, hnew⟩ := h.record
  obtain ⟨_, _, rfl⟩ := Tree.eq_of_record hnew
  rfl

lemma retains_prepared (hw : t.watcher? τ.id = some τ.watcher) : t.Retains (τ.prepared t) := by
  have hlater : t.Later (τ.prepared t) := Tree.Later.of_frame (frame_prepared hw)
  unfold prepared at hlater ⊢
  split at hlater
  · exact .of_same hlater (Array.size_modify ..) rfl rfl rfl
  · exact .of_same hlater (Array.size_modify ..) rfl rfl rfl
  · exact .of_same hlater rfl rfl rfl rfl

lemma waiting_prepared (τ : Telling κ) (t : Tree κ σ) (g : GroupId) :
    (τ.prepared t).queues.waiting g = t.queues.waiting g := by
  unfold prepared
  split <;> rfl

end Telling

/-! ## Tracks -/

namespace Juncture

variable {m m' : Juncture κ σ} {ds : List (Deed κ)}

lemma Next.retains (h : Next m ds m') : m.tree.Retains m'.tree := by
  cases h with
  | shift h => exact h.retains
  | tell hrecord =>
    have hprepared := Telling.retains_prepared (hrecord.watcher_marked)
    exact trans_of Tree.Retains hrecord.retains
      (trans_of Tree.Retains hprepared (Tree.retains_note _ _))
  | take hrecord => exact hrecord.retains
  | hand hrecord hgroup hshifts =>
    exact trans_of Tree.Retains (trans_of Tree.Retains hrecord.retains hshifts.retains)
      (Tree.retains_queueAsync _ _ _)
  | start h => exact Tree.retains_of_dequeue? h
  | work h hshifts =>
    exact trans_of Tree.Retains (trans_of Tree.Retains (Tree.retains_of_dequeue? h) hshifts.retains)
      (Tree.retains_note _ _)
  | checked => exact refl_of Tree.Retains _
  | check | watch | hear | body => exact Tree.retains_note _ _

theorem Track.retains (h : Track m ds m') : m.tree.Retains m'.tree := by
  induction h with
  | none => exact refl_of Tree.Retains _
  | more _ hnext ih => exact trans_of Tree.Retains ih hnext.retains

end Juncture

end DataBinding
