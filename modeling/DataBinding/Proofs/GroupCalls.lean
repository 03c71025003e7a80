import DataBinding.Proofs.Musters

/-!
# When the listener of a group is called

A change that is handed on to a group schedules one call of its listener, and further changes that
come before the call leave it at that: a task of the group waits for the next pass just if the group
is marked as scheduled (`Tree.Ready`).  The mark is taken away when the call is made, which is
before the next pass begins.  So the calls are as many as the passes in which a change was handed on
(`Host.group_called_once_per_pass`).

This is not once for each digest, since a digest makes several passes: a listener that sets one of
the inputs of a group brings about a second call in the same digest (`herald_called_twice`).
-/

namespace DataBinding

open Compute (runOn)
open DataBinding.Tree (Spares)

variable {κ σ : Type} {g : GroupId}

/-! ## Calls and passes -/

namespace Turn

/-- Whether a change is handed on to the group. -/
def hands : Turn → Bool
  | probe _ _ _ (some _) => true
  | _ => false

/-- Whether the listener is called. -/
def isCall : Turn → Bool
  | call .. => true
  | _ => false

lemma hands_of_isCall {turn : Turn} (h : turn.isCall = true) : turn.hands = false := by
  cases turn with
  | call => rfl
  | _ => cases h

end Turn

namespace Tree

variable {t u : Tree κ σ} {w : WatcherId}

/-- A task of the group waits for the next pass just if the group is marked as scheduled, and no
other task of it waits. -/
structure Ready (g : GroupId) (t : Tree κ σ) : Prop where
  bears : t.Bears g
  due : ∀ {group}, t.groups[g]? = some group → t.queues.due .async g = group.scheduled.toNat

lemma Ready.of_spares (h : t.Ready g) (hspares : Spares g t u) : u.Ready g where
  bears := h.bears.of_spares hspares
  due hu := (hspares.due .async).trans (h.due (hspares.group.symm.trans hu))

lemma Ready.of_eq (h : t.Ready g) (hgroups : u.groups = t.groups) (hqueues : u.queues = t.queues) :
    u.Ready g where
  bears := h.bears.of_eq hgroups hqueues
  due hu := hqueues ▸ h.due (hgroups ▸ hu)

lemma groups_formGroup (t : Tree κ σ) (s : ScopeId) (watches : List κ) (listener : κ) :
    (t.formGroup s watches listener).2.groups[t.groups.size]? =
      some { listener, newValues := t.store.heap.arrays.size,
             oldValues := t.store.heap.arrays.size + 1 } := by
  rw [formGroup, groups_addMembers]
  simp [addGroup, Heap.newArray]

/-- Once a change is handed over a task of the group waits. -/
lemma Ready.handOver (h : t.Ready g) (s : ScopeId) : (t.handOver s g).Ready g ∧
    (t.handOver s g).queues.due .async g = 1 ∧ (t.handOver s g).passCount = t.passCount := by
  have hbears := h.bears.handOver s
  obtain ⟨group, hfound⟩ := Option.ne_none_iff_exists'.1 h.bears.group
  obtain ⟨queues, deferral, journal, heq, hdue, hpasses⟩ := t.handOver_cases s g
  have hone : queues.due .async g = 1 := by
    rw [hdue .async, h.due hfound, hfound]
    cases hscheduled : group.scheduled <;> simp [hscheduled]
  rw [heq] at hbears ⊢
  refine ⟨⟨hbears, fun {group'} hfound' => hone.trans ?_⟩, hone, hpasses⟩
  have hscheduled : (t.scheduleGroup g).2.groups[g]? = some { group with scheduled := true } := by
    simp [scheduleGroup, modifyGroup, Array.getElem?_modify, hfound]
  cases hscheduled.symm.trans hfound'
  rfl

lemma Lacks.ready_formGroup (h : t.Lacks g) (hg : t.groups.size = g) (s : ScopeId)
    (watches : List κ) (listener : κ) : (t.formGroup s watches listener).2.Ready g ∧
      (t.formGroup s watches listener).2.queues.due .async g = 0 := by
  obtain ⟨_, _, _, heq, -⟩ := (t.addGroup listener watches.length).2.addMembers_cases s
    t.groups.size 0 watches
  have hnone : (t.formGroup s watches listener).2.queues.due .async g = 0 :=
    (congrArg (·.queues.due .async g) heq).trans (h.due .async)
  refine ⟨⟨h.bears_formGroup hg s watches listener, fun hfound => hnone.trans ?_⟩, hnone⟩
  subst hg
  cases (t.groups_formGroup s watches listener).symm.trans hfound
  rfl

end Tree

namespace Engine

variable {E : Engine κ σ} {t u : Tree κ σ} {w : WatcherId} {turn : Turn}

/-- After a probe a task of the group waits if a change was handed on, or if one waited before. -/
lemma Probes.ready (h : E.Probes g w t turn u) (ht : t.Ready g) : u.Ready g ∧
    (u.queues.due .async g = if turn.hands then 1 else t.queues.due .async g) ∧
    u.passCount = t.passCount := by
  have hrecorded : ∀ {v x : Tree κ σ} {value : Value} {change : Option Change},
      v.record w value = some (change, x) →
      x.groups = v.groups ∧ x.queues = v.queues ∧ x.journal = v.journal := by
    intro v x value change hrecord
    obtain ⟨_, _, rfl⟩ := Tree.eq_of_record hrecord
    exact ⟨rfl, rfl, rfl⟩
  cases h with
  | failed h _ hspares =>
    have hall := trans_of (Spares g) h.spares hspares
    exact ⟨ht.of_spares hall, hall.due .async, hall.passes⟩
  | same h hrecord =>
    obtain ⟨hgroups, hqueues, hjournal⟩ := hrecorded hrecord
    refine ⟨(ht.of_spares h.spares).of_eq hgroups hqueues, ?_, ?_⟩
    · rw [hqueues]
      exact h.spares.due .async
    · exact (congrArg (List.countP _) hjournal).trans h.spares.passes
  | @refused _ s _ _ _ v x y _ h hrecord hreact _ hspares =>
    obtain ⟨hgroups, hqueues, hjournal⟩ := hrecorded hrecord
    have hx := (ht.of_spares h.spares).of_eq hgroups hqueues
    obtain ⟨group, hfound⟩ := Option.ne_none_iff_exists'.1 hx.bears.group
    rcases reactMember_steps (t := { x with lastDirty := some w }) hfound hreact with
      ⟨_, heap, -, rfl, -⟩ | ⟨_, _, _, -, -, -, hr, -⟩
    · have hy : (Tree.withHeap { x with lastDirty := some w } heap).Ready g := hx.of_eq rfl rfl
      refine ⟨hy.of_spares hspares, ?_, ?_⟩
      · rw [hspares.due]
        exact (congrArg (·.due .async g) hqueues).trans (h.spares.due .async)
      · rw [hspares.passes]
        exact (congrArg (List.countP _) hjournal).trans h.spares.passes
    · cases hr
  | @handed _ s _ _ v x _ h hrecord hreact =>
    obtain ⟨hgroups, hqueues, hjournal⟩ := hrecorded hrecord
    have hx := (ht.of_spares h.spares).of_eq hgroups hqueues
    obtain ⟨group, hfound⟩ := Option.ne_none_iff_exists'.1 hx.bears.group
    rcases reactMember_steps (t := { x with lastDirty := some w }) hfound hreact with
      ⟨_, _, hr, -⟩ | ⟨_, olds, heap, -, -, -, -, rfl⟩
    · cases hr
    · have hwritten : (Tree.withHeap { x with lastDirty := some w }
          (heap.setItems group.oldValues olds)).Ready g := hx.of_eq rfl rfl
      obtain ⟨hready, hdue, hpasses⟩ := hwritten.handOver s
      exact ⟨hready, hdue,
        hpasses.trans ((congrArg (List.countP _) hjournal).trans h.spares.passes)⟩

/-- A call takes the task that waited for it, and no other one waits then. -/
lemma Rings.ready (h : E.Rings g t turn u) (ht : t.Ready g) : u.Ready g ∧
    t.queues.due .async g = 1 ∧ u.queues.due .async g = 0 ∧ u.passCount = t.passCount ∧
    turn.isCall = true := by
  have hbears := h.bears ht.bears
  cases h with
  | @intro task group change r v x y _ hnext hwork hfound hchange htell hspares hend hends =>
    cases hchange
    have hdue := Tree.due_of_dequeue? (g := g) hnext .async
    obtain ⟨rest, hv⟩ := Tree.eq_of_dequeue? hnext
    have hgroups : v.groups = t.groups := by rw [hv]; rfl
    have hpasses : v.passCount = t.passCount := by rw [hv]; rfl
    have hone := Bool.toNat_le group.scheduled
    rw [ht.due (hgroups ▸ hfound), hwork, if_pos ⟨rfl, rfl⟩] at hdue
    have hnone : u.queues.due .async g = 0 := by
      rw [hends.due]
      exact (hspares.due .async).trans (by change v.queues.due .async g = 0; omega)
    refine ⟨⟨hbears, fun {group'} hfound' => hnone.trans ?_⟩, ?_, hnone,
      (hends.passes.trans hspares.passes).trans hpasses, rfl⟩
    · have hgroup : (y.unscheduleGroup g).groups[g]? = some group' := hends.group ▸ hfound'
      rw [Tree.unscheduleGroup, Tree.modifyGroup, Array.getElem?_modify, if_pos rfl,
        Option.map_eq_some_iff] at hgroup
      obtain ⟨_, -, rfl⟩ := hgroup
      rfl
    · rw [ht.due (hgroups ▸ hfound)]
      omega

end Engine

/-- How often the listener is called. -/
def Turn.calls (es : List (List Turn)) : ℕ := es.flatten.countP isCall

/-- The number of passes in which a change is handed on. -/
def Turn.eventful (es : List (List Turn)) : ℕ := es.countP (·.any hands)

namespace Host

variable {H : Host κ σ} {t u : Tree κ σ} {ts : List Turn} {es : List (List Turn)}

/-- The listener is not called within a pass. -/
lemma Turns.not_call (h : H.Turns g t ts u) : ∀ turn ∈ ts, turn.isCall = false := by
  induction h with
  | none => exact fun _ h => (by cases h)
  | aside _ _ ih =>
    refine List.forall_mem_append.2 ⟨ih, fun turn hturn => ?_⟩
    cases List.mem_singleton.1 hturn
    rfl
  | probe _ _ _ hprobes ih =>
    refine List.forall_mem_append.2 ⟨ih, fun turn hturn => ?_⟩
    cases List.mem_singleton.1 hturn
    cases hprobes <;> rfl

lemma Turns.countP_isCall (h : H.Turns g t ts u) : ts.countP Turn.isCall = 0 :=
  List.countP_eq_zero.2 fun turn hturn => ne_true_of_eq_false (h.not_call turn hturn)

/-- After a stretch of a pass a task of the group waits if a change was handed on in it, or if one
waited before. -/
theorem Turns.ready (h : H.Turns g t ts u) (ht : t.Ready g) : u.Ready g ∧
    (u.queues.due .async g = if ts.any Turn.hands then 1 else t.queues.due .async g) ∧
    u.passCount = t.passCount := by
  induction h with
  | none => exact ⟨ht, rfl, rfl⟩
  | aside _ hspares ih =>
    obtain ⟨hready, hdue, hpasses⟩ := ih
    refine ⟨hready.of_spares hspares, ?_, hspares.passes.trans hpasses⟩
    rw [hspares.due, hdue]
    simp [Turn.hands]
  | probe _ _ _ hprobes ih =>
    obtain ⟨hready, hdue, hpasses⟩ := ih
    obtain ⟨hready', hdue', hpasses'⟩ := hprobes.ready hready
    refine ⟨hready', ?_, hpasses'.trans hpasses⟩
    rw [hdue', hdue]
    cases hhands : Turn.hands _ <;> simp [hhands]

/-- Each pass in which a change is handed on leads to one call. -/
theorem Muster.calls_add_due (h : H.Muster g t es u) (ht : t.Ready g) : u.Ready g ∧
    Turn.calls es + u.queues.due .async g = t.queues.due .async g + Turn.eventful es ∧
    t.passCount + Turn.eventful es ≤ u.passCount := by
  induction h with
  | none => exact ⟨ht, Nat.add_comm 0 _, le_rfl⟩
  | aside _ hspares ih =>
    obtain ⟨hready, hcalls, hpasses⟩ := ih
    refine ⟨hready.of_spares hspares, ?_, ?_⟩
    · rw [hspares.due]
      simpa [Turn.calls, Turn.eventful, Turn.isCall, Turn.hands] using hcalls
    · rw [hspares.passes]
      simpa [Turn.eventful, Turn.hands] using hpasses
  | @pass u v es ts s _ _ hempty hturns ih =>
    obtain ⟨hready, hcalls, hpasses⟩ := ih
    have hnoted : (u.note (.pass s)).Ready g := hready.of_eq rfl rfl
    have hnone : u.queues.due .async g = 0 := by simp [Queues.due, Queues.tasks, hempty]
    have hbegun : (u.note (.pass s)).passCount = u.passCount + 1 := List.countP_cons_of_pos rfl
    obtain ⟨hready', hdue, hpasses'⟩ := hturns.ready hnoted
    have hcall := hturns.countP_isCall
    rw [show (u.note (.pass s)).queues.due .async g = 0 from hnone] at hdue
    refine ⟨hready', ?_, ?_⟩
    · rw [hdue]
      cases hany : ts.any Turn.hands <;>
        simp [Turn.calls, Turn.eventful, hany, hcall] at hcalls ⊢ <;> omega
    · cases hany : ts.any Turn.hands <;> simp [Turn.eventful, hany] at hpasses ⊢ <;> omega
  | call _ _ _ _ hrings ih =>
    obtain ⟨hready, hcalls, hpasses⟩ := ih
    obtain ⟨hready', hdue, hdue', hpasses', hcall⟩ := hrings.ready hready
    have hhands := Turn.hands_of_isCall hcall
    refine ⟨hready', ?_, ?_⟩
    · simp [Turn.calls, Turn.eventful, hcall, hhands] at hcalls ⊢
      omega
    · simpa [Turn.eventful, hhands, hpasses'] using hpasses

theorem Career.calls_add_due (h : H.Career g es u) : u.Ready g ∧
    Turn.calls es + u.queues.due .async g = Turn.eventful es := by
  obtain ⟨⟨s, watches, listener, hg, hlacks, hturns⟩, hmuster⟩ := h
  obtain ⟨hformed, hnone⟩ := hlacks.ready_formGroup hg s watches listener
  obtain ⟨hready, hdue, -⟩ := hturns.ready hformed
  have hcall := hturns.countP_isCall
  obtain ⟨hready', hcalls, -⟩ := hmuster.calls_add_due hready
  refine ⟨hready', ?_⟩
  rw [hdue, hnone] at hcalls
  simp only [Turn.calls, Turn.eventful, List.flatten_cons, List.countP_append, hcall,
    List.countP_cons] at hcalls ⊢
  omega

end Host

lemma Tree.Ready.due_le {t : Tree κ σ} (h : t.Ready g) : t.queues.due .async g ≤ 1 := by
  obtain ⟨group, hfound⟩ := Option.ne_none_iff_exists'.1 h.bears.group
  rw [h.due hfound]
  exact Bool.toNat_le _

/-- A run in which a group is formed is a career of the group.  Its listener is called once for each
pass in which a change is handed on, however many changes that are, and no call is lost: one that
was not made yet waits for the next pass.  So one digest calls the listener as often as there are
passes with changes, and once more if a call was waiting before. -/
theorem Host.group_called_once_per_pass (H : Host κ σ) (g : GroupId) (store : Store σ)
    (compiler : Compiler) (config : Config) (timed : Bool) :
    (∀ {α : Type} (limit : ℕ) (p : Program κ σ α) (r : Except Error α) (u : Tree κ σ),
      H.run limit p (.plant store compiler config timed) = some (r, u) →
      u.Lacks g ∨ ∃ es, H.Career g es u) ∧
    ∀ (es : List (List Turn)) (t : Tree κ σ), H.Career g es t →
      Turn.calls es + t.queues.due .async g = Turn.eventful es ∧
      (∀ {α : Type} (limit : ℕ) (p : Program κ σ α) (r : Except Error α) (u : Tree κ σ),
        H.run limit p t = some (r, u) → ∃ es', H.Muster g t es' u) ∧
      ∀ (es' : List (List Turn)) (u : Tree κ σ), H.Muster g t es' u →
        Turn.calls es' + u.queues.due .async g = t.queues.due .async g + Turn.eventful es' ∧
        t.queues.due .async g ≤ 1 ∧ u.queues.due .async g ≤ 1 ∧
        t.passCount + Turn.eventful es' ≤ u.passCount := by
  refine ⟨fun limit p r u h => career_of_run h, fun es t h => ?_⟩
  obtain ⟨hready, hcalls⟩ := h.calls_add_due
  refine ⟨hcalls, fun limit p r u hrun => muster_of_run hrun h.bears, fun es' u h' => ?_⟩
  obtain ⟨hready', hcalls', hpasses⟩ := h'.calls_add_due hready
  exact ⟨hcalls', hready.due_le, hready'.due_le, hpasses⟩

/-! ## A host that makes one input follow another -/

/-- The procedures of a host with two inputs. -/
inductive Herald
  | first
  | second
  | copy
  | told

/-- A host whose second input is as the first one once a listener has been called. -/
def herald : Host Herald Bool where
  library := ⟨fun _ _ _ => .endless, fun _ _ => .endless⟩
  report := fun _ host => host
  procedure
    | .first, _ => return .bool true
    | .second, _ => return .bool (← Program.look (·.store.host))
    | .copy, _ => do
      Program.compute (Compute.change ({ · with host := true }))
      return .undefined
    | .told, _ => return .undefined

/-- Watches the first input, to set the second one, and then both as a group. -/
def heraldSetup : Program Herald Bool Registration := do
  discard <| Program.request (.watch rootId .first .copy false)
  Program.request (.watchGroup rootId [.first, .second] .told)

/-- Whether the listener of the group is called. -/
def Herald.tells : Step Herald → Bool
  | .called .told _ => true
  | _ => false

/-- The second input changes in the first pass, when the members of the group were looked at
already.  So the next pass finds it changed. -/
lemma herald_run : ∃ t, herald.run 9 heraldSetup
      (.plant ⟨.empty, false⟩ ⟨.empty, .empty⟩ {} false) = some (.ok (.group [1, 2]), t) ∧
    t.groups[0]?.isSome = true ∧ t.queues.due .async 0 = 0 ∧ t.passCount = 0 ∧
    t.journal.countP Herald.tells = 0 ∧
    ∃ u, herald.run 9 (.request (.digest rootId)) t = some (.ok (), u) ∧
      u.queues.due .async 0 = 0 ∧ u.passCount = 3 ∧ u.journal.countP Herald.tells = 2 := by
  generalize hx : herald.run 9 heraldSetup _ = x
  cbv at hx
  subst hx
  refine ⟨_, rfl, rfl, rfl, rfl, rfl, ?_⟩
  generalize hy : herald.run 9 _ _ = y
  cbv at hy
  subst hy
  exact ⟨_, rfl, rfl, rfl, rfl⟩

/-- One digest calls the listener twice. -/
theorem herald_called_twice : ∃ t u, herald.run 9 heraldSetup
      (.plant ⟨.empty, false⟩ ⟨.empty, .empty⟩ {} false) = some (.ok (.group [1, 2]), t) ∧
    herald.run 9 (.request (.digest rootId)) t = some (.ok (), u) ∧
    t.journal.countP Herald.tells = 0 ∧ u.journal.countP Herald.tells = 2 := by
  obtain ⟨t, hsetup, -, -, -, hbefore, u, hdigest, -, -, hafter⟩ := herald_run
  exact ⟨t, u, hsetup, hdigest, hbefore, hafter⟩

/-- It is called in that digest as often as there are passes with changes, which are at most all
three of them. -/
theorem herald_called_per_pass : ∃ (t u : Tree Herald Bool) (es es' : List (List Turn)),
    herald.Career 0 es t ∧ herald.Muster 0 t es' u ∧ Turn.calls es = Turn.eventful es ∧
      Turn.calls es' = Turn.eventful es' ∧ Turn.eventful es' ≤ 3 := by
  obtain ⟨t, hsetup, hgroup, hdue, hpasses, -, u, hdigest, hdue', hpasses', -⟩ := herald_run
  obtain ⟨hruns, hcareers⟩ :=
    herald.group_called_once_per_pass 0 ⟨.empty, false⟩ ⟨.empty, .empty⟩ {} false
  obtain hlacks | ⟨es, hcareer⟩ := hruns _ _ _ _ hsetup
  · rw [hlacks.group] at hgroup
    cases hgroup
  obtain ⟨hcalls, hmusters, hcounts⟩ := hcareers es t hcareer
  obtain ⟨es', hmuster⟩ := hmusters _ _ _ _ hdigest
  obtain ⟨hcalls', -, -, hbound⟩ := hcounts es' u hmuster
  rw [hdue] at hcalls hcalls'
  rw [hdue'] at hcalls'
  exact ⟨t, u, es, es', hcareer, hmuster, hcalls, by omega, by omega⟩

end DataBinding
