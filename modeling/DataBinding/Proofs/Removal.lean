import DataBinding.Proofs.Retention

/-!
# What is called of a registration that was taken back

To take a registration back keeps its listener from being called for whatever begins afterwards.
But it does not reach what is under way: a watcher that is being checked may turn out to have
changed, and the listener of a group may be queued already, or a member that is being checked may
have it queued.  That is what is pending of a registration (`Juncture.pending`), and its listener is
called no more often after the removal (`Host.calls_after_removal`).  So an event listener and the
listener of a group without members are not called any more.

The listener of a group with members can be: it is when it was queued before the removal
(`quitter_hears_on`).
-/

namespace DataBinding

open Compute (Leads runOn runOn_bind_cases)
open Juncture (Next Track)
open DataBinding.Tree (Shifts proceeds_shifts)

variable {κ σ : Type}

/-! ## Subscriptions -/

/-- What a registration stands for: a watcher, a group with its members, the announcement of a group
without members, an event listener. -/
inductive Subscription where
  | watcher (w : WatcherId)
  | group (g : GroupId)
  | announcement (a : ℕ)
  | listener (l : ListenerId)
deriving DecidableEq

/-- The subscription whose listener a task calls. -/
def Work.subscription? : Work κ → Option Subscription
  | .group g => some (.group g)
  | .announcement a => some (.announcement a)
  | .procedure _ | .settle _ | .rearm => none

/-- The subscription whose listener is called. -/
def Deed.subscription? : Deed κ → Option Subscription
  | .tell τ => some (.watcher τ.id)
  | .hear l .. => some (.listener l)
  | .work task .. => task.work.subscription?
  | .watch .. | .body .. => none

/-- A request for a registration. -/
inductive Request.Subscribes : Request κ σ Registration → Prop
  | watch (s : ScopeId) (watch listener : κ) (byValue : Bool) :
    Subscribes (.watch s watch listener byValue)
  | watchExpression (s : ScopeId) (source : String) (listener : κ) (byValue : Bool) :
    Subscribes (.watchExpression s source listener byValue)
  | watchGroup (s : ScopeId) (watches : List κ) (listener : κ) :
    Subscribes (.watchGroup s watches listener)
  | watchCollection (s : ScopeId) (watch listener : κ) :
    Subscribes (.watchCollection s watch listener)
  | listen (s : ScopeId) (event : String) (procedure : κ) : Subscribes (.listen s event procedure)

namespace Tree

/-- How many of several watchers are members of a group. -/
def membersIn (t : Tree κ σ) (g : GroupId) (ws : List WatcherId) : ℕ :=
  ws.countP (t.groupOf? · = some g)

/-- The subscription that a registration stands for. -/
def subscription? (t : Tree κ σ) : Registration → Option Subscription
  | .watcher w => some (.watcher w)
  | .group ws => (ws.head?.bind t.groupOf?).map .group
  | .announcement a => some (.announcement a)
  | .listener l => some (.listener l)

end Tree

/-- How often the listener of a subscription can still be called on account of what is under way: a
watcher that is being checked may turn out to have changed; a member of a group that is being
checked may have the listener of the group queued, and tasks that are queued for that wait. -/
def Juncture.pending (m : Juncture κ σ) : Subscription → ℕ
  | .watcher w => m.checks.count w
  | .group g => m.tree.queues.waiting g + m.tree.membersIn g m.checks
  | .announcement _ | .listener _ => 0

/-! ## Registrations that are taken back -/

namespace Tree

variable {t u : Tree κ σ} {r : Registration} {x : Subscription} {w : WatcherId}

/-- The registration is that of the subscription, and it has all members of a group. -/
inductive Stands (t : Tree κ σ) : Registration → Subscription → Prop
  | watcher {w : WatcherId} (h : w < t.watchers.size) : Stands t (.watcher w) (.watcher w)
  | group {ws : List WatcherId} {g : GroupId} (h : g < t.groups.size)
    (hws : ∀ w, t.groupOf? w = some g → w ∈ ws) : Stands t (.group ws) (.group g)
  | announcement {a : ℕ} (h : a < t.announcements.size) :
    Stands t (.announcement a) (.announcement a)
  | listener {l : ListenerId} (h : l < t.listeners.size) : Stands t (.listener l) (.listener l)

/-- The subscription was taken back. -/
def Revoked (t : Tree κ σ) : Subscription → Prop
  | .watcher w => w < t.watchers.size ∧ t.isActive w = false
  | .group g => g < t.groups.size ∧ ∀ w, t.groupOf? w = some g → t.isActive w = false
  | .announcement a => ∃ x, t.announcements[a]? = some x ∧ x.cancelled = true
  | .listener l => ∃ x, t.listeners[l]? = some x ∧ x.active = false

/-- A watcher that was taken away does not come back. -/
lemma Later.isActive_eq_false (h : t.Later u) (hw : w < t.watchers.size)
    (hinactive : t.isActive w = false) : u.isActive w = false := by
  have hwatcher : t.watcher? w = some t.watchers[w] := Array.getElem?_eq_getElem hw
  obtain ⟨watcher', hw', hsucceeds⟩ := h.watcher w _ hwatcher
  rw [isActive, hwatcher] at hinactive
  rw [isActive, hw']
  exact Bool.eq_false_iff.2 fun hactive => Bool.eq_false_iff.1 hinactive (hsucceeds.active hactive)

lemma Stands.of_retains (hx : t.Stands r x) (h : t.Retains u) : u.Stands r x := by
  cases hx with
  | watcher hw => exact .watcher (hw.trans_le h.later.watchers_le)
  | group hg hws =>
    exact .group (hg.trans_le h.groups_le) fun w hw => hws w (h.groupOf?_of_lt hg hw)
  | announcement ha =>
    obtain ⟨y, hy, -⟩ := h.announcement (Array.getElem?_eq_getElem ha)
    exact .announcement (Array.getElem?_eq_some_iff.1 hy).1
  | listener hl =>
    obtain ⟨y, hy, -⟩ := h.listener (Array.getElem?_eq_getElem hl)
    exact .listener (Array.getElem?_eq_some_iff.1 hy).1

lemma Revoked.of_retains (hx : t.Revoked x) (h : t.Retains u) : u.Revoked x := by
  cases x with
  | watcher w =>
    obtain ⟨hw, hinactive⟩ := hx
    exact ⟨hw.trans_le h.later.watchers_le, h.later.isActive_eq_false hw hinactive⟩
  | group g =>
    obtain ⟨hg, hmembers⟩ := hx
    refine ⟨hg.trans_le h.groups_le, fun w hw => ?_⟩
    have hmember := h.groupOf?_of_lt hg hw
    exact h.later.isActive_eq_false (lt_size_of_groupOf? hmember) (hmembers w hmember)
  | announcement a =>
    obtain ⟨x, hx, hcancelled⟩ := hx
    obtain ⟨y, hy, hxy⟩ := h.announcement hx
    exact ⟨y, hy, hxy hcancelled⟩
  | listener l =>
    obtain ⟨x, hx, hinactive⟩ := hx
    obtain ⟨y, hy, hyx⟩ := h.listener hx
    exact ⟨y, hy, Bool.eq_false_iff.2 fun hactive => Bool.eq_false_iff.1 hinactive (hyx hactive)⟩

lemma shifts_deregister (t : Tree κ σ) (r : Registration) : t.Shifts (t.deregister r) :=
  proceeds_shifts.toPermits.deregister t r

lemma isActive_removeWatchers {ws : List WatcherId} (hw : w ∈ ws) (hlt : w < t.watchers.size) :
    (t.removeWatchers ws).isActive w = false := by
  induction ws generalizing t with
  | nil => cases hw
  | cons v rest ih =>
    have hlater : t.Later (t.removeWatcher v) := later_removeWatcher t v
    rcases List.mem_cons.1 hw with rfl | hw
    · have hrest := ((t.removeWatcher w).shifts_deregister (.group rest)).retains.later
      exact hrest.isActive_eq_false (hlt.trans_le hlater.watchers_le)
        (isActive_removeWatcher_self t w)
    · exact ih hw (hlt.trans_le hlater.watchers_le)

lemma membersIn_cons (t : Tree κ σ) (g : GroupId) (w : WatcherId) (ws : List WatcherId) :
    t.membersIn g (w :: ws) = t.membersIn g ws + if t.groupOf? w = some g then 1 else 0 := by
  simp [membersIn, List.countP_cons]

lemma Retains.membersIn_le (h : t.Retains u) {g : GroupId} (hg : g < t.groups.size)
    (ws : List WatcherId) : u.membersIn g ws ≤ t.membersIn g ws :=
  List.countP_mono_left fun w _ hw => by
    simp only [decide_eq_true_eq] at hw ⊢
    exact h.groupOf?_of_lt hg hw

/-- To take a registration back revokes its subscription. -/
lemma Stands.revoked (hx : t.Stands r x) : (t.deregister r).Revoked x := by
  have hretains := (t.shifts_deregister r).retains
  cases hx with
  | watcher hw =>
    exact ⟨hw.trans_le hretains.later.watchers_le, isActive_removeWatcher_self t _⟩
  | group hg hws =>
    refine ⟨hg.trans_le hretains.groups_le, fun w hw => ?_⟩
    have hmember := hretains.groupOf?_of_lt hg hw
    exact isActive_removeWatchers (hws w hmember) (lt_size_of_groupOf? hmember)
  | @announcement a ha =>
    obtain ⟨y, hy⟩ : ∃ y, t.announcements[a]? = some y := ⟨_, Array.getElem?_eq_getElem ha⟩
    refine ⟨{ y with cancelled := true }, ?_, rfl⟩
    simp [deregister, cancelAnnouncement, Array.getElem?_modify, hy]
  | @listener l hl =>
    obtain ⟨y, hy⟩ : ∃ y, t.listeners[l]? = some y := ⟨_, Array.getElem?_eq_getElem hl⟩
    refine ⟨{ y with active := false }, ?_, rfl⟩
    simp [deregister, removeListener, Array.getElem?_modify, hy]

end Tree

/-! ## What is still pending -/

namespace Juncture

variable {m m' : Juncture κ σ} {ds : List (Deed κ)} {x : Subscription}

/-- How often the listener of a subscription is called. -/
def tally (x : Subscription) (ds : List (Deed κ)) : ℕ := ds.countP (·.subscription? = some x)

@[simp] lemma tally_nil : tally (κ := κ) x [] = 0 := rfl

lemma tally_singleton (d : Deed κ) :
    tally x [d] = if d.subscription? = some x then 1 else 0 := by
  simp [tally, List.countP_cons]

lemma tally_append (ds ds' : List (Deed κ)) : tally x (ds ++ ds') = tally x ds + tally x ds' :=
  List.countP_append ..

lemma Next.watcher_le {w : WatcherId} (h : Next m ds m') (hw : m.tree.isActive w = false) :
    tally (.watcher w) ds + m'.checks.count w ≤ m.checks.count w := by
  cases h with
  | shift | start | body => simp [tally_singleton, Deed.subscription?]
  | hear => simp [tally_singleton, Deed.subscription?]
  | watch => simp [tally_singleton, Deed.subscription?]
  | @check cs t v hactive =>
    have hne : v ≠ w := fun h => by simp [h, hw] at hactive
    simp [List.count_cons_of_ne hne]
  | checked | take | hand => simp [List.count_cons]
  | @tell cs t u τ =>
    by_cases h : τ.id = w
    · simp [tally_singleton, Deed.subscription?, h, Nat.add_comm]
    · simp [tally_singleton, Deed.subscription?, h]
  | @work cs t u v q task =>
    cases hwork : task.work <;>
      simp [tally_singleton, Deed.subscription?, Work.subscription?, hwork]

/-- A listener that was taken away hears nothing. -/
lemma Next.tally_listener {l : ListenerId} (h : Next m ds m') (hl : m.tree.Revoked (.listener l)) :
    tally (.listener l) ds = 0 := by
  cases h with
  | watch | body | tell => simp [tally_singleton, Deed.subscription?]
  | @hear cs t k listener e args hk hactive =>
    obtain ⟨x, hx, hinactive⟩ := hl
    have hne : k ≠ l := by
      rintro rfl
      cases hk.symm.trans hx
      exact Bool.eq_false_iff.1 hinactive hactive
    simp [tally_singleton, Deed.subscription?, hne]
  | @work cs t u v q task =>
    cases hwork : task.work <;>
      simp [tally_singleton, Deed.subscription?, Work.subscription?, hwork]
  | _ => rfl

/-- An announcement that was cancelled is not made. -/
lemma Next.tally_announcement {a : ℕ} (h : Next m ds m')
    (ha : m.tree.Revoked (.announcement a)) : tally (.announcement a) ds = 0 := by
  cases h with
  | watch | body | tell | hear => simp [tally_singleton, Deed.subscription?]
  | @work cs t u v q task procedure how h hshifts hcalls =>
    have hretains := trans_of Tree.Retains (Tree.retains_of_dequeue? h) hshifts.retains
    obtain ⟨x, hx, hcancelled⟩ : v.Revoked (.announcement a) := ha.of_retains hretains
    cases hcalls with
    | procedure hwork => simp [tally_singleton, Deed.subscription?, Work.subscription?, hwork]
    | group hwork => simp [tally_singleton, Deed.subscription?, Work.subscription?, hwork]
    | @announcement b y change hwork hy hcancelled' =>
      have hne : b ≠ a := by
        rintro rfl
        cases hy.symm.trans hx
        exact Bool.eq_false_iff.1 hcancelled' hcancelled
      simp [tally_singleton, Deed.subscription?, Work.subscription?, hwork, hne]
  | _ => rfl

/-- A listener of a group is called by a task that waited for that, and such a task is queued by a
member that was being checked. -/
lemma Next.group_le {g : GroupId} (h : Next m ds m') (hg : m.tree.Revoked (.group g)) :
    tally (.group g) ds + m'.pending (.group g) ≤ m.pending (.group g) := by
  obtain ⟨hsize, hmembers⟩ := hg
  have hretained := h.retains.membersIn_le hsize
  simp only [pending]
  cases h with
  | @shift cs t u h =>
    have hwaiting := h.waiting_eq (g := g)
    have hcs := hretained cs
    simp only [tally_nil] at *
    omega
  | @check cs t w hactive =>
    have hw : t.groupOf? w ≠ some g := fun hw => by simp [hmembers w hw] at hactive
    have hcs : t.membersIn g (w :: cs) = t.membersIn g cs := by simp [Tree.membersIn_cons, hw]
    show 0 + (t.queues.waiting g + t.membersIn g (w :: cs)) ≤
      t.queues.waiting g + t.membersIn g cs
    omega
  | watch | hear | body =>
    simp only [tally_singleton, Deed.subscription?]
    exact (Nat.zero_add _).le
  | @checked cs t w =>
    have hcons := t.membersIn_cons g w cs
    simp only [tally_nil] at *
    omega
  | @tell cs t u τ procedure how hrecord =>
    have hwaiting := hrecord.waiting_eq g
    have hprepared := τ.waiting_prepared { u with lastDirty := some τ.id } g
    have hcs := hretained cs
    have hcons := t.membersIn_cons g τ.id cs
    have htally : tally (.group g) [Deed.tell τ] = 0 := by
      simp [tally_singleton, Deed.subscription?]
    rw [htally]
    show 0 + ((τ.prepared { u with lastDirty := some τ.id }).queues.waiting g + _) ≤ _
    dsimp only at *
    omega
  | @take cs t u τ g' hrecord =>
    have hwaiting := hrecord.waiting_eq g
    have hcs := hretained cs
    have hcons := t.membersIn_cons g τ.id cs
    simp only [tally_nil] at *
    omega
  | @hand cs t u v τ g' hrecord hgroup hshifts =>
    have hwaiting := hrecord.waiting_eq g
    have hshifted := hshifts.waiting_eq (g := g)
    have hqueued := v.waiting_queueAsync (g := g) τ.watcher.scope (.group g')
    have hcs := hretained cs
    have hcons := t.membersIn_cons g τ.id cs
    rw [hrecord.groupOf?_eq, hgroup] at hcons
    simp only [tally_nil, Work.group?, Option.some.injEq] at *
    omega
  | @start cs t u q task h =>
    have hwaiting := Tree.waiting_of_dequeue? (g := g) h
    have hcs := hretained cs
    simp only [tally_nil] at *
    omega
  | @work cs t u v q task procedure how h hshifts hcalls =>
    have hwaiting := Tree.waiting_of_dequeue? (g := g) h
    have hshifted := hshifts.waiting_eq (g := g)
    have hcs := hretained cs
    have htally : tally (.group g) [Deed.work task procedure how] =
        if task.work.group? = some g then 1 else 0 := by
      cases hwork : task.work <;>
        simp [tally_singleton, Deed.subscription?, Work.subscription?, Work.group?, hwork]
    rw [htally]
    show _ + (v.queues.waiting g + _) ≤ _
    dsimp only at *
    omega

/-- A call of the listener of a subscription that was taken back uses up what was pending. -/
lemma Next.pending_le (h : Next m ds m') (hx : m.tree.Revoked x) :
    tally x ds + m'.pending x ≤ m.pending x := by
  cases x with
  | watcher w => exact h.watcher_le hx.2
  | group g => exact h.group_le hx
  | announcement a => exact (h.tally_announcement hx).le
  | listener l => exact (h.tally_listener hx).le

/-- What is pending bounds how often the listener is called from then on. -/
lemma Track.pending_le (h : Track m ds m') (hx : m.tree.Revoked x) :
    tally x ds + m'.pending x ≤ m.pending x := by
  induction h with
  | none => simp
  | more htrack hnext ih =>
    have hstep := hnext.pending_le (hx.of_retains htrack.retains)
    rw [tally_append]
    omega

end Juncture

/-- Shifts add nothing to what is pending. -/
lemma Tree.Stands.pending_le {t u : Tree κ σ} {r : Registration} {x : Subscription}
    (hx : t.Stands r x) (h : t.Shifts u) (cs : List WatcherId) :
    Juncture.pending ⟨cs, u⟩ x ≤ Juncture.pending ⟨cs, t⟩ x := by
  cases hx with
  | group hg hws => exact Nat.add_le_add h.waiting_eq.le (h.retains.membersIn_le hg cs)
  | _ => exact le_rfl

/-! ## Registrations that are made -/

namespace Tree

variable {t u : Tree κ σ}

/-- The watchers of a tree are members of groups of that tree at most. -/
def Enrolled (t : Tree κ σ) : Prop := ∀ w g, t.groupOf? w = some g → g < t.groups.size

lemma enrolled_plant (store : Store σ) (compiler : Compiler) (config : Config) (timed : Bool) :
    (plant (κ := κ) store compiler config timed).Enrolled := by
  intro w g h
  exact absurd (lt_size_of_groupOf? h) (Nat.not_lt_zero w)

lemma Enrolled.of_retains (ht : t.Enrolled) (h : t.Retains u) : u.Enrolled := by
  intro w g hw
  by_cases hlt : w < t.watchers.size
  · rw [h.later.groupOf?_eq hlt] at hw
    exact (ht w g hw).trans_le h.groups_le
  · exact (h.recruit (not_lt.1 hlt) hw).2

/-- A group that is made has the members that are registered with it. -/
lemma Enrolled.stands_formGroup (ht : t.Enrolled) (s : ScopeId) (watch : κ) (rest : List κ)
    (listener : κ) :
    (t.formGroup s (watch :: rest) listener).2.subscription?
        (.group (t.formGroup s (watch :: rest) listener).1) = some (.group t.groups.size) ∧
      (t.formGroup s (watch :: rest) listener).2.Stands
        (.group (t.formGroup s (watch :: rest) listener).1) (.group t.groups.size) := by
  obtain ⟨scopes, watchers, lastDirty, heq, hlength, hgroup⟩ :=
    (t.addGroup listener (rest.length + 1)).2.addMembers_cases s t.groups.size 0 (watch :: rest)
  let formed := t.formGroup s (watch :: rest) listener
  replace heq : formed.2 =
    { (t.addGroup listener (rest.length + 1)).2 with scopes, watchers, lastDirty } := heq
  replace hlength : formed.1.length = rest.length + 1 := hlength
  replace hgroup : ∀ w, formed.2.groupOf? w =
    if w ∈ formed.1 then some t.groups.size else t.groupOf? w := hgroup
  have hsize : formed.2.groups.size = t.groups.size + 1 := by
    rw [heq]
    exact Array.size_push ..
  constructor
  · cases hws : formed.1 with
    | nil => simp [hws] at hlength
    | cons w ws =>
      have hw : formed.2.groupOf? w = some t.groups.size := by simp [hgroup, hws]
      show ((some w).bind formed.2.groupOf?).map Subscription.group = _
      simp [hw]
  · refine .group (lt_of_lt_of_eq (Nat.lt_succ_self _) hsize.symm) fun w hw => ?_
    by_contra hnot
    rw [show (t.formGroup s (watch :: rest) listener).2.groupOf? w = _ from hgroup w,
      if_neg hnot] at hw
    exact lt_irrefl _ (ht w _ hw)

end Tree

/-- A request for a registration makes one that has all of its subscription. -/
lemma Engine.stands_of_answer {E : Engine κ σ} {t u : Tree κ σ} {q : Request κ σ Registration}
    {r : Registration} (hq : q.Subscribes) (h : runOn (E.answer q) t = some (.ok r, u))
    (ht : t.Enrolled) : ∃ x, u.subscription? r = some x ∧ u.Stands r x := by
  have hadd : ∀ (t : Tree κ σ) s kind byValue, (t.addWatcher s kind byValue).2.Stands
      (.watcher (t.addWatcher s kind byValue).1) (.watcher (t.addWatcher s kind byValue).1) := by
    intro t s kind byValue
    exact .watcher (by simp [Tree.addWatcher])
  cases hq with
  | watch s watch listener byValue =>
    cases h
    exact ⟨_, rfl, hadd ..⟩
  | watchExpression s source listener byValue =>
    obtain ⟨e, v, -, h⟩ := Compute.runOn_bind_ok_cases h
    cases h
    exact ⟨_, rfl, hadd ..⟩
  | watchCollection s watch listener =>
    cases h
    exact ⟨_, rfl, hadd ..⟩
  | watchGroup s watches listener =>
    cases watches with
    | nil =>
      cases h
      have hmade : (t.addAnnouncement listener).2.Stands
          (.announcement t.announcements.size) (.announcement t.announcements.size) :=
        .announcement (by simp [Tree.addAnnouncement])
      exact ⟨_, rfl, hmade.of_retains (Tree.retains_queueAsync _ _ _)⟩
    | cons watch rest =>
      cases h
      obtain ⟨hsubscription, hstands⟩ := ht.stands_formGroup s watch rest listener
      exact ⟨_, hsubscription, hstands⟩
  | listen s event procedure =>
    cases h
    exact ⟨_, rfl, .listener (by simp [Tree.addListener])⟩

/-- After a registration was taken back, its listener is called no more often than what was under
way at that time can come to: once for each check of the watcher itself, and for a group once for
each check of a member and for each task that waits to call the listener.  The listener of an event
and that of a group without members are not called any more. -/
theorem Host.calls_after_removal (H : Host κ σ) {limit : ℕ} {store : Store σ} {compiler : Compiler}
    {config : Config} {timed : Bool} {ds₀ ds ds' : List (Deed κ)} {cs cs' : List WatcherId}
    {t u v : Tree κ σ} {q : Request κ σ Registration} {r : Registration} {m : Juncture κ σ}
    (hbefore : Track ⟨[], .plant store compiler config timed⟩ ds₀ ⟨cs, t⟩) (hq : q.Subscribes)
    (hissue : runOn ((H.engine limit).answer q) t = some (.ok r, u))
    (hmeanwhile : Track ⟨cs, u⟩ ds ⟨cs', v⟩) (hafter : Track ⟨cs', v.deregister r⟩ ds' m) :
    ∃ x, u.subscription? r = some x ∧ Juncture.tally x ds' ≤ Juncture.pending ⟨cs', v⟩ x := by
  have henrolled : t.Enrolled :=
    (Tree.enrolled_plant store compiler config timed).of_retains hbefore.retains
  obtain ⟨x, hx, hstands⟩ := Engine.stands_of_answer hq hissue henrolled
  have hstands' : v.Stands r x := hstands.of_retains hmeanwhile.retains
  refine ⟨x, hx, ?_⟩
  have hcalls := hafter.pending_le hstands'.revoked
  have hpending := hstands'.pending_le (v.shifts_deregister r) cs'
  omega

/-! ## A host that takes a group back -/

/-- The procedures of a host, one of which is called for a group and one takes a group back. -/
inductive Quitter where
  | steady
  | fresh
  | leave
  | hear

/-- A host that keeps whether the listener of a group was called when the group had no member any
more. -/
def quitter : Host Quitter Bool where
  library := ⟨fun _ _ _ => .endless, fun _ _ => .endless⟩
  report := fun _ host => host
  procedure
    | .fresh, .watch _ => Value.array <$> Program.compute (Store.making (·.newArray #[]))
    | .leave, .changed .. => do
      Program.request (.deregister (.group [1]))
      return .undefined
    | .hear, .changed .. => do
      if (← Program.look fun t => t.isActive 1) = false then
        Program.compute (Compute.change ({ · with host := true }))
      return .undefined
    | _, _ => return .undefined

/-- Watches with a listener that takes back the group that is registered after it. -/
def quitterSetup : Program Quitter Bool Registration := do
  discard <| Program.request (.watch rootId .steady .leave false)
  Program.request (.watchGroup rootId [.steady] .hear)

/-- The group is taken back when its listener is queued already, and the listener is called. -/
theorem quitter_hears_on : ∃ t, quitter.run 9 quitterSetup
      (.plant ⟨.empty, false⟩ ⟨.empty, .empty⟩ {} false) = some (.ok (.group [1]), t) ∧
    ∃ u, runOn ((quitter.engine 9).digest rootId) t = some (.ok (), u) ∧
      u.isActive 1 = false ∧ u.store.host = true := by
  generalize hx : quitter.run 9 quitterSetup _ = x
  cbv at hx
  subst hx
  refine ⟨_, rfl, ?_⟩
  generalize hy : runOn _ _ = y
  cbv at hy
  subst hy
  exact ⟨_, rfl, rfl, rfl⟩

/-- What that host comes to when a digest gives up on a group, and when the group is taken back
then. -/
lemma quitter_run : ∃ u, runOn ((quitter.engine 9).answer (.watchGroup rootId [.fresh] .hear))
      (.plant ⟨.empty, false⟩ ⟨.empty, .empty⟩ { digestTtl := 1 } false) =
        some (.ok (.group [0]), u) ∧
    u.subscription? (.group [0]) = some (.group 0) ∧
    ∃ v, quitter.run 9 (.request (.digest rootId)) u = some (.error (.divergence 1), v) ∧
      Juncture.pending ⟨[], v⟩ (.group 0) = 1 ∧
      ∃ u', quitter.run 9 (.request (.digest rootId)) (v.deregister (.group [0])) =
        some (.ok (), u') := by
  generalize hx : runOn _ _ = x
  cbv at hx
  subst hx
  refine ⟨_, rfl, rfl, ?_⟩
  generalize hy : quitter.run 9 _ _ = y
  cbv at hy
  subst hy
  exact ⟨_, rfl, rfl, _, rfl⟩

/-- The digest that follows calls the listener of that group at most once. -/
theorem quitter_pending : ∃ (ds' : List (Deed Quitter)) (v u' : Tree Quitter Bool),
    Track ⟨[], v.deregister (.group [0])⟩ ds' ⟨[], u'⟩ ∧
      Juncture.tally (.group 0) ds' ≤ 1 := by
  obtain ⟨u, hissue, hgroup, v, hdigest, hpending, u', hagain⟩ := quitter_run
  obtain ⟨ds, hmeanwhile⟩ := Host.track_of_run hdigest []
  obtain ⟨ds', hafter⟩ := Host.track_of_run hagain []
  obtain ⟨x, hx, hcalls⟩ := quitter.calls_after_removal (.none _)
    (.watchGroup rootId [.fresh] .hear) hissue hmeanwhile hafter
  cases hgroup.symm.trans hx
  exact ⟨ds', v, u', hafter, hcalls.trans hpending.le⟩

end DataBinding
