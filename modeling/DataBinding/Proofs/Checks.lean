import DataBinding.Proofs.Requests
import DataBinding.Proofs.Shape

/-!
# What checks and digests do to a tree

To check a watcher and to have it react changes a tree by more than requests do: the watcher keeps
what it saw (`Tree.setKind`) and what it took for a change (`Tree.record`).  A relation that admits
this too holds across every reaction (`Observes`), and one that admits the note of a check across
every check (`Watches`).

A digest goes on from there: it takes tasks out of their queues (`Drains`), marks the watcher that
was found dirty last (`Visits`), notes its passes (`Passes`), and begins and ends phases
(`Digests`).  A relation that admits all of this holds across whole runs (`Host.tame_of_digests`).

A relation that does not hold across the call of a procedure or the taking of a task by itself can
still hold across passes and drains.  If it holds across all else that a digest does (`Proceeds`),
it holds across whatever a program asks for (`Engine.heeds_of_proceeds`).
-/

namespace DataBinding

open Compute (Leads runOn runOn_bind_cases)

variable {κ σ : Type}

/-- Whether it is a one-time expression that is watched. -/
def WatchKind.isOneTime : WatchKind κ → Bool
  | .oneTime .. => true
  | _ => false

/-! ## Single changes -/

namespace Tree

variable {t u : Tree κ σ}

/-- The tree at the beginning of a phase. -/
def entering (t : Tree κ σ) (phase : Phase) : Tree κ σ :=
  { t with phase := some phase }.note (.entered phase)

lemma enter_of_idle (hidle : t.phase = none) (phase : Phase) :
    t.enter phase = .ok (t.entering phase) := by
  rw [enter, hidle]
  rfl

lemma eq_of_enter {phase : Phase} (h : t.enter phase = .ok u) : u = t.entering phase := by
  rw [enter_of_idle (phase_of_enter h).1] at h
  cases h
  rfl

lemma eq_of_dequeue? {q : Queue} {task : Task κ} (h : t.dequeue? q = some (task, u)) :
    ∃ rest, u = { t with queues := t.queues.setTasks q rest }.note (.started q task.number) := by
  unfold dequeue? at h
  split at h
  · cases h
  · cases h
    exact ⟨_, rfl⟩

lemma cancelApply_eq (t : Tree κ σ) :
    ∃ deferral applyFlush, t.cancelApply = { t with deferral, applyFlush } := by
  unfold cancelApply
  split
  · exact ⟨_, none, rfl⟩
  · exact ⟨_, _, rfl⟩

end Tree

/-! ## Relations that admit them -/

/-- The relation holds across every change that a reaction makes, and a check once it is noted. -/
structure Observes (R : Tree κ σ → Tree κ σ → Prop) : Prop extends Defers R where
  setKind : ∀ {t w watcher kind}, t.watcher? w = some watcher →
    kind.forget = watcher.kind.forget → R t (t.setKind w kind)
  record : ∀ {t u w new change}, t.record w new = some (change, u) → R t u

/-- The relation holds across every change that a reaction makes in one step. -/
structure Notices (R : Tree κ σ → Tree κ σ → Prop) : Prop extends Allows R where
  setKind : ∀ {t w watcher kind}, t.watcher? w = some watcher →
    kind.forget = watcher.kind.forget → R t (t.setKind w kind)
  record : ∀ {t u w new change}, t.record w new = some (change, u) → R t u

/-- The relation holds across every change that a check or a reaction makes. -/
structure Watches (R : Tree κ σ → Tree κ σ → Prop) : Prop extends Observes R where
  checked : ∀ {t w}, R t (t.note (.checked w))

/-- The relation holds across every change that the draining of a queue makes. -/
structure Drains (R : Tree κ σ → Tree κ σ → Prop) : Prop extends Defers R where
  dequeue : ∀ {t u q task}, t.dequeue? q = some (task, u) → R t u

/-- The relation holds across every change that the visit of a watcher makes. -/
structure Visits (R : Tree κ σ → Tree κ σ → Prop) : Prop extends Watches R where
  dirty : ∀ {t w}, R t { t with lastDirty := some w }

/-- The relation holds across every change that the visit of a watcher makes in one step. -/
structure Surveys (R : Tree κ σ → Tree κ σ → Prop) : Prop extends Notices R where
  checked : ∀ {t w}, R t (t.note (.checked w))
  dirty : ∀ {t w}, R t { t with lastDirty := some w }

/-- The relation holds across every change that a pass makes. -/
structure Passes (R : Tree κ σ → Tree κ σ → Prop) : Prop extends Visits R where
  pass : ∀ {t s}, R t (t.note (.pass s))

/-- The relation holds across every change that a digest, an apply or a deferred job makes by
itself, without calling a procedure and without taking a task. -/
structure Proceeds (R : Tree κ σ → Tree κ σ → Prop) : Prop extends Permits R where
  tick : ∀ {t u}, t.Tick u → R t u
  enter : ∀ {t u phase}, t.enter phase = .ok u → R t u
  leave : ∀ {t phase}, R t (t.leave phase)
  start : ∀ {t}, R t { t with lastDirty := none }.cancelApply

/-- The relation holds across every change that a digest makes. -/
structure Digests (R : Tree κ σ → Tree κ σ → Prop) : Prop extends Passes R, Drains R where
  enter : ∀ {t u phase}, t.enter phase = .ok u → R t u
  leave : ∀ {t phase}, R t (t.leave phase)
  start : ∀ {t}, R t { t with lastDirty := none }.cancelApply

section Steps

variable {R : Tree κ σ → Tree κ σ → Prop} [IsPreorder (Tree κ σ) R]

lemma Observes.notices (hR : Observes R) : Notices R :=
  { hR.toAdmits.allows with setKind := hR.setKind, record := hR.record }

lemma Visits.surveys (hR : Visits R) : Surveys R :=
  { hR.toObserves.notices with checked := hR.checked, dirty := hR.dirty }

lemma Digests.proceeds (hR : Digests R) : Proceeds R :=
  { hR.toAdmits.allows.permits with
    tick := hR.tick, enter := hR.enter, leave := hR.leave, start := hR.start }

instance : Coe (Observes R) (Notices R) := ⟨Observes.notices⟩

instance : Coe (Visits R) (Surveys R) := ⟨Visits.surveys⟩

end Steps

/-! ## Evaluation changes the store only -/

namespace Tree

/-- The second tree differs from the first in its store at most. -/
def Evaluated (t u : Tree κ σ) : Prop := ∃ store, u = { t with store }

instance : IsPreorder (Tree κ σ) Evaluated where
  refl t := ⟨t.store, rfl⟩
  trans _ _ _ := by
    rintro ⟨_, rfl⟩ ⟨store, rfl⟩
    exact ⟨store, rfl⟩

end Tree

namespace Engine

variable {E : Engine κ σ} {R : Tree κ σ → Tree κ σ → Prop}

lemma evaluated_evaluate (s : ScopeId) (e : Expression) (locals : Option Value) :
    Leads Tree.Evaluated (E.evaluate s e locals) :=
  (Leads.read _).bind fun _ => .within _ fun _ store => ⟨store, rfl⟩

lemma evaluated_evaluateInputs (s : ScopeId) (e : Expression) :
    Leads Tree.Evaluated (E.evaluateInputs s e) :=
  (Leads.read _).bind fun _ => .mapM (fun _ => .within _ fun _ store => ⟨store, rfl⟩) _

variable [IsPreorder (Tree κ σ) R]

/-! ## Checks -/

lemma leads_writeMember (hR : Grants R) (a index : ℕ) (v : Value) :
    Leads R (writeMember (κ := κ) a index v) :=
  (Leads.read _).bind fun _ => (Leads.ofExcept _).bind fun _ => leads_onStore hR _

lemma leads_reactMember (hR : Grants R) {s : ScopeId} {g : GroupId}
    (hgroup : ∀ (t : Tree κ σ) f, R t (t.modifyGroup g f))
    (hqueue : ∀ t : Tree κ σ, R t (t.queueAsync s (.group g))) (index : ℕ) (change : Change) :
    Leads R (reactMember s g index change) := by
  refine (Leads.read _).bind fun group => ?_
  cases group with
  | none => exact .pure ()
  | some group =>
    refine (leads_writeMember hR _ _ _).bind fun _ => (leads_writeMember hR _ _ _).bind fun _ => ?_
    refine (Leads.alter fun t => hgroup t _).bind fun first => ?_
    cases first with
    | false => exact .pure ()
    | true => exact .change hqueue

omit [IsPreorder (Tree κ σ) R] in
/-- A check is noted.  If there is such a watcher, what it watches is observed, which can fail, and
then taken in. -/
lemma check_cases {t u : Tree κ σ} {w : WatcherId} {r : Except Error (Option Change)}
    (h : runOn (E.check w) t = some (r, u)) :
    (t.watcher? w = none ∧ r = .ok none ∧ u = t.note (.checked w)) ∨
      ∃ watcher, t.watcher? w = some watcher ∧
        ((∃ e, r = .error e ∧ runOn (E.observe watcher.scope w watcher.kind)
            (t.note (.checked w)) = some (.error e, u)) ∨
          ∃ new v change, r = .ok change ∧ runOn (E.observe watcher.scope w watcher.kind)
              (t.note (.checked w)) = some (.ok new, v) ∧ v.record w new = some (change, u)) := by
  rw [check, Compute.runOn_change_bind, Compute.runOn_read_bind] at h
  cases hw : t.watcher? w with
  | none =>
    rw [show (t.note (.checked w)).watcher? w = none from hw] at h
    cases h
    exact .inl ⟨rfl, rfl, rfl⟩
  | some watcher =>
    rw [show (t.note (.checked w)).watcher? w = some watcher from hw] at h
    refine .inr ⟨watcher, rfl, ?_⟩
    rcases runOn_bind_cases h with ⟨e, h₁, rfl⟩ | ⟨new, v, h₁, h₂⟩
    · exact .inl ⟨e, rfl, h₁⟩
    · rw [Compute.runOn_alterEndless] at h₂
      obtain ⟨⟨change, u⟩, hrecord, h₂⟩ := Option.map_eq_some_iff.1 h₂
      cases h₂
      exact .inr ⟨new, v, change, rfl, h₁, hrecord⟩

section Remembering

/-- To observe inputs respects the relation, if what the watcher remembers of them does. -/
lemma related_observeInputs (hR : Grants R) {t u : Tree κ σ} {s : ScopeId} {w : WatcherId}
    {watcher : Watcher κ} {e : Expression} {listener : κ} {memo : Option Memo}
    {r : Except Error Value} (hw : t.watcher? w = some watcher)
    (hkind : watcher.kind = .inputs e listener memo)
    (hset : ∀ {t : Tree κ σ} {kind}, t.watcher? w = some watcher →
      kind.forget = watcher.kind.forget → R t (t.setKind w kind))
    (h : runOn (E.observeInputs s w e listener memo) t = some (r, u)) : R t u := by
  rcases runOn_bind_cases h with ⟨_, h₁, -⟩ | ⟨inputs, t₁, h₁, h₂⟩
  · obtain ⟨store, rfl⟩ := evaluated_evaluateInputs s e h₁
    exact hR.store t store
  · obtain ⟨store, rfl⟩ := evaluated_evaluateInputs s e h₁
    have hstore := hR.store t store
    cases hmemo : memo.filter (·.covers inputs) with
    | some memo =>
      rw [hmemo] at h₂
      cases h₂
      exact hstore
    | none =>
      rw [hmemo] at h₂
      rcases runOn_bind_cases h₂ with ⟨_, h₃, -⟩ | ⟨result, t₂, h₃, h₄⟩
      · exact trans_of R hstore (leads_evaluate hR s e none h₃)
      · obtain ⟨store', rfl⟩ := evaluated_evaluate s e none h₃
        cases h₄
        refine trans_of R (trans_of R hstore (hR.store _ store')) ?_
        exact hset hw (hkind ▸ rfl)

/-- To observe what a watcher watches respects the relation, if what the watcher remembers of it
does. -/
lemma related_observe_of_parts (hR : Concedes R)
    (hcall : ∀ procedure how, Leads R (E.invoke procedure how)) {t u : Tree κ σ} {w : WatcherId}
    {watcher : Watcher κ} {r : Except Error Value} (hw : t.watcher? w = some watcher)
    (hset : watcher.kind.isOneTime = false → ∀ {t : Tree κ σ} {kind}, t.watcher? w = some watcher →
      kind.forget = watcher.kind.forget → R t (t.setKind w kind))
    (hnotice : ∀ {watch listener state}, watcher.kind = .collection watch listener state →
      ∀ (t : Tree κ σ) v, R t (t.noticeCollection w v).2)
    (h : runOn (E.observe watcher.scope w watcher.kind) t = some (r, u)) : R t u := by
  cases hkind : watcher.kind with
  | procedure watch listener =>
    rw [hkind] at h
    exact leads_call hR hcall _ _ h
  | member watch g index =>
    rw [hkind] at h
    exact leads_call hR hcall _ _ h
  | expression e listener =>
    rw [hkind] at h
    exact leads_evaluate hR.toGrants _ e none h
  | constant e listener =>
    rw [hkind] at h
    exact leads_evaluate hR.toGrants _ e none h
  | oneTime e listener reported =>
    rw [hkind] at h
    exact leads_evaluate hR.toGrants _ e none h
  | inputs e listener memo =>
    rw [hkind] at h
    exact related_observeInputs hR.toGrants hw hkind (hset (hkind ▸ rfl)) h
  | collection watch listener state =>
    rw [hkind] at h
    refine Leads.bind (leads_call hR hcall _ _) (fun v => ?_) h
    exact .alter fun t => hnotice hkind t v

variable (hset : ∀ {t : Tree κ σ} {w watcher kind}, t.watcher? w = some watcher →
  watcher.kind.isOneTime = false → kind.forget = watcher.kind.forget → R t (t.setKind w kind))

include hset

lemma related_noticeCollection (t : Tree κ σ) (w : WatcherId) (v : Value) :
    R t (t.noticeCollection w v).2 := by
  unfold Tree.noticeCollection
  split
  · next hw => exact hset hw rfl rfl
  · exact refl_of R t

/-- To observe what a watcher watches respects the relation, if what watchers remember does. -/
lemma related_observe_of_setKind (hR : Concedes R)
    (hcall : ∀ procedure how, Leads R (E.invoke procedure how)) {t u : Tree κ σ} {w : WatcherId}
    {watcher : Watcher κ} {r : Except Error Value} (hw : t.watcher? w = some watcher)
    (h : runOn (E.observe watcher.scope w watcher.kind) t = some (r, u)) : R t u :=
  related_observe_of_parts hR hcall hw (fun hkind _ _ hw => hset hw hkind)
    (fun _ t v => related_noticeCollection hset t w v) h

end Remembering

section Watching

variable (hR : Notices R) (hcall : ∀ procedure how, Leads R (E.invoke procedure how))

include hR hcall

lemma related_observe {t u : Tree κ σ} {w : WatcherId} {watcher : Watcher κ}
    {r : Except Error Value} (hw : t.watcher? w = some watcher)
    (h : runOn (E.observe watcher.scope w watcher.kind) t = some (r, u)) : R t u :=
  related_observe_of_setKind (fun hw _ hkind => hR.setKind hw hkind) hR.toAllows hcall hw h

/-- A check is noted, and what follows respects the relation. -/
lemma related_check {t u : Tree κ σ} {w : WatcherId} {r : Except Error (Option Change)}
    (h : runOn (E.check w) t = some (r, u)) : R (t.note (.checked w)) u := by
  rcases check_cases h with ⟨-, -, rfl⟩ | ⟨watcher, hw, ⟨_, -, h₁⟩ | ⟨new, v, change, -, h₁, h₂⟩⟩
  · exact refl_of R _
  · exact related_observe hR hcall (t := t.note (.checked w)) hw h₁
  · exact trans_of R (related_observe hR hcall (t := t.note (.checked w)) hw h₁) (hR.record h₂)

end Watching

/-! ## Reactions -/

section Reacting

variable (hR : Concedes R) (hcall : ∀ procedure how, Leads R (E.invoke procedure how))

include hR hcall

lemma related_reactOneTime {t u : Tree κ σ} {s : ScopeId} {w : WatcherId} {e : Expression}
    {listener : κ} {change : Change} {r : Except Error Unit}
    (hset : R t (t.setKind w (.oneTime e listener change.new)))
    (h : runOn (E.reactOneTime s w e listener change) t = some (r, u)) : R t u := by
  rw [reactOneTime, Compute.runOn_change_bind] at h
  refine trans_of R hset ?_
  refine Leads.bind (leads_tell hR hcall _ _ _).attempt (fun result => ?_) h
  refine (Leads.read _).bind fun settled => ?_
  cases settled with
  | true => exact (Leads.change fun t => hR.postpone t s rfl).bind fun _ => .ofExcept result
  | false => exact .ofExcept result

/-- What a watcher does about a change respects the relation, if what it keeps for itself does, the
call of its group that it asks for, and its own end once its listener has been told. -/
lemma related_notify_of_steps {t u : Tree κ σ} {w : WatcherId} {watcher : Watcher κ}
    {change : Change} {r : Except Error Unit} (hw : t.watcher? w = some watcher)
    (hset : ∀ {kind}, kind.forget = watcher.kind.forget → R t (t.setKind w kind))
    (hgroup : ∀ g, watcher.kind.group? = some g → ∀ t : Tree κ σ,
      (∀ f, R t (t.modifyGroup g f)) ∧ ∀ s, R t (t.queueAsync s (.group g)))
    (hremove : watcher.kind.isOneTime = false → ∀ {v}, R t v → R t (v.removeWatcher w))
    (h : runOn (E.notify w change) t = some (r, u)) : R t u := by
  have htell : ∀ listener s change, Leads R (E.tell listener s change) :=
    fun _ _ _ => leads_tell hR hcall _ _ _
  rw [notify, Compute.runOn_read_bind, hw] at h
  replace h : runOn (E.react watcher.scope w change watcher.kind) t = some (r, u) := h
  cases hkind : watcher.kind with
  | procedure watch listener =>
    rw [hkind] at h
    exact htell _ _ _ h
  | expression e listener =>
    rw [hkind] at h
    exact htell _ _ _ h
  | inputs e listener memo =>
    rw [hkind] at h
    exact htell _ _ _ h
  | constant e listener =>
    rw [hkind] at h hremove
    obtain ⟨result, v, htold, hrest⟩ := Compute.runOn_attempt_bind_cases h
    rw [Compute.runOn_change_bind] at hrest
    cases hrest
    exact hremove rfl (htell _ _ _ htold)
  | oneTime e listener reported =>
    rw [hkind] at h
    exact related_reactOneTime hR hcall (hset (hkind ▸ rfl)) h
  | member watch g index =>
    rw [hkind] at h hgroup
    exact leads_reactMember hR.toGrants (fun t => (hgroup g rfl t).1)
      (fun t => (hgroup g rfl t).2 _) _ _ h
  | collection watch listener state =>
    rw [hkind, react, Compute.runOn_alter_bind] at h
    refine trans_of R ?_ (htell _ _ _ h)
    exact trans_of R (hset (hkind ▸ rfl)) (hR.store _ _)

end Reacting

/-- What a watcher does about a change respects the relation. -/
lemma leads_notify (hR : Notices R) (hcall : ∀ procedure how, Leads R (E.invoke procedure how))
    (w : WatcherId) (change : Change) : Leads R (E.notify w change) := by
  intro t r u h
  have hallows := hR.toAllows
  cases hw : t.watcher? w with
  | none =>
    rw [notify, Compute.runOn_read_bind, hw] at h
    cases h
    exact refl_of R t
  | some watcher =>
    refine related_notify_of_steps hallows hcall hw (hR.setKind hw)
      (fun g _ t => ⟨fun f => ?_, fun s => ?_⟩) (fun _ v hv => trans_of R hv ?_) h
    · exact hallows.permits.edit (.modifyGroup t g f)
    · exact hallows.act (.queueAsync t _ _) (t.apply_queueAsync _ _)
    · exact hallows.act (.removeWatcher v w) (v.apply_removeWatcher w)

lemma leads_check (hR : Notices R) (hchecked : ∀ {t w}, R t (t.note (.checked w)))
    (hcall : ∀ procedure how, Leads R (E.invoke procedure how)) (w : WatcherId) :
    Leads R (E.check w) :=
  fun _ _ _ h => trans_of R hchecked (related_check hR hcall h)

/-! ## Tasks -/

/-- To drain a queue respects the relation if each task does that is taken out of it and then
run. -/
lemma leads_drain_of_task {q : Queue} (htask : ∀ {t task u r v},
      t.dequeue? q = some (task, u) →
        runOn (E.contained (E.perform task.scope task.work)) u = some (r, v) → R t v) :
    Leads R (E.drain q) := by
  have hwithin : ∀ limit, Leads R (E.drainWithin q limit) := by
    intro limit
    induction limit with
    | zero => exact .endless
    | succ limit ih =>
      intro t r u h
      cases hnext : t.dequeue? q with
      | none =>
        rw [drainWithin, Compute.runOn_bind_of_ok (Compute.runOn_alter?_of_none hnext)] at h
        cases h
        exact refl_of R t
      | some x =>
        rw [drainWithin, Compute.runOn_bind_of_ok (Compute.runOn_alter?_of_some hnext)] at h
        rcases runOn_bind_cases h with ⟨e, hrun, -⟩ | ⟨_, v, hrun, hrest⟩
        · exact htask hnext hrun
        · exact trans_of R (htask hnext hrun) (ih hrest)
  exact hwithin E.limit

/-- To drain one queue respects the relation if that holds across the taking of tasks from it. -/
lemma leads_drain_of_dequeue (hR : Allows R) {q : Queue}
    (hdequeue : ∀ {t u task}, t.dequeue? q = some (task, u) → R t u)
    (hcall : ∀ procedure how, Leads R (E.invoke procedure how)) : Leads R (E.drain q) :=
  leads_drain_of_task fun hnext hrun =>
    trans_of R (hdequeue hnext) (leads_contained hR (leads_perform hR hcall _ _) hrun)

lemma leads_drain (hR : Drains R) (hcall : ∀ procedure how, Leads R (E.invoke procedure how))
    (q : Queue) : Leads R (E.drain q) :=
  leads_drain_of_dequeue hR.toAdmits hR.dequeue hcall

/-! ## Passes -/

/-- A visit checks a watcher that is active.  It reports the error of the check, or says whether the
walk ends there, or marks the watcher and has it react. -/
lemma visitWatcher_cases {t u : Tree κ σ} {w : WatcherId} {r : Except Error Findings}
    (h : runOn (E.visitWatcher w) t = some (r, u)) :
    (t.isActive w = false ∧ r = .ok {} ∧ u = t) ∨
      t.isActive w = true ∧ ∃ result v, runOn (E.check w) t = some (result, v) ∧
        ((∃ e, result = .error e ∧ r = .ok {} ∧ runOn (E.reportError e) v = some (.ok (), u)) ∨
          (result = .ok none ∧ r = .ok { ended := v.lastDirty == some w } ∧ u = v) ∨
          ∃ change, result = .ok (some change) ∧ r = .ok { dirty := true } ∧
            runOn (E.contained (E.notify w change)) { v with lastDirty := some w } =
              some (.ok (), u)) := by
  rw [visitWatcher, Compute.runOn_read_bind] at h
  cases hactive : t.isActive w with
  | false =>
    rw [hactive] at h
    cases h
    exact .inl ⟨rfl, rfl, rfl⟩
  | true =>
    rw [hactive, if_pos rfl] at h
    obtain ⟨result, v, hcheck, hrest⟩ := Compute.runOn_attempt_bind_cases h
    refine .inr ⟨rfl, result, v, hcheck, ?_⟩
    rcases result with e | _ | change
    · cases hrest
      exact .inl ⟨e, rfl, rfl, rfl⟩
    · cases hrest
      exact .inr (.inl ⟨rfl, rfl, rfl⟩)
    · rw [Compute.runOn_change_bind] at hrest
      rcases runOn_bind_cases hrest with ⟨e, hnotify, -⟩ | ⟨_, v', hnotify, hr⟩
      · obtain ⟨hr, -⟩ := runOn_contained_cases hnotify
        cases hr
      · cases hr
        exact .inr (.inr ⟨change, rfl, rfl, hnotify⟩)

section Passing

variable (hR : Surveys R) (hcall : ∀ procedure how, Leads R (E.invoke procedure how))

include hR hcall

lemma leads_inspect (w : WatcherId) : Leads R (E.inspect w) := by
  refine (leads_check hR.toNotices hR.checked hcall w).attempt.bind fun result => ?_
  rcases result with e | _ | change
  · exact (leads_reportError hR.toAllows e).bind fun _ => .pure _
  · exact (Leads.read _).bind fun _ => .pure _
  · refine (Leads.change fun t => hR.dirty).bind fun _ => ?_
    refine (leads_contained hR.toAllows ?_).bind fun _ => .pure _
    exact leads_notify hR.toNotices hcall w change

lemma leads_visitWatcher (w : WatcherId) : Leads R (E.visitWatcher w) := by
  refine (Leads.read _).bind fun active => ?_
  cases active with
  | true => exact leads_inspect hR hcall w
  | false => exact .pure _

lemma leads_visitScope (s : ScopeId) : Leads R (E.visitScope s) :=
  (Leads.read _).bind fun ws => Routine.leads_inOrder (leads_visitWatcher hR hcall) ws

end Passing

lemma leads_pass (hR : Passes R) (hcall : ∀ procedure how, Leads R (E.invoke procedure how))
    (s : ScopeId) : Leads R (E.pass s) :=
  (Leads.change fun _ => hR.pass).bind fun _ =>
    (Routine.leads_walk (leads_visitScope hR.toVisits hcall) _ s).bind fun _ => .pure _

/-! ## Rounds -/

/-- A round with some kind of pass, and what is next unless it settles the digest. -/
def roundWith (E : Engine κ σ) (pass next : Routine κ σ Bool) : Routine κ σ Bool := do
  E.drain .async
  let dirty ← pass
  if !dirty && (← Compute.read (·.queues.async.isEmpty)) then return true else next

/-- The rounds of a digest with some kind of pass. -/
def passesWith (E : Engine κ σ) (pass : Routine κ σ Bool) : ℕ → Routine κ σ Bool
  | 0 => E.roundWith pass (pure false)
  | allowed + 1 => E.roundWith pass (passesWith E pass allowed)

lemma passes_eq_passesWith (E : Engine κ σ) (s : ScopeId) (allowed : ℕ) :
    E.passes s allowed = E.passesWith (E.pass s) allowed := by
  induction allowed with
  | zero => rfl
  | succ allowed ih =>
    rw [passes, passesWith, roundWith]
    simp only [ih]

lemma leads_roundWith {p next : Routine κ σ Bool} (hp : Leads R p)
    (hdrain : Leads R (E.drain .async)) (hnext : Leads R next) :
    Leads R (E.roundWith p next) := by
  refine hdrain.bind fun _ => hp.bind fun dirty => (Leads.read _).bind fun idle => ?_
  split
  · exact .pure _
  · exact hnext

lemma leads_passesWith {p : Routine κ σ Bool} (hp : Leads R p)
    (hdrain : Leads R (E.drain .async)) (allowed : ℕ) :
    Leads R (E.passesWith p allowed) := by
  induction allowed with
  | zero => exact leads_roundWith hp hdrain (.pure false)
  | succ allowed ih => exact leads_roundWith hp hdrain ih

/-- The rounds of a digest respect what their drains and passes respect. -/
lemma leads_passes {s : ScopeId} (hdrain : Leads R (E.drain .async)) (hpass : Leads R (E.pass s))
    (allowed : ℕ) : Leads R (E.passes s allowed) := by
  rw [passes_eq_passesWith]
  exact leads_passesWith hpass hdrain allowed

/-! ## Digests -/

section Proceeding

variable (hR : Proceeds R) (hdrain : ∀ q, Leads R (E.drain q))

include hR

lemma leads_enter (phase : Phase) : Leads R (enter (κ := κ) (σ := σ) phase) := by
  intro t r u h
  rw [enter, Compute.runOn_read_bind] at h
  cases hphase : t.enter phase with
  | error e =>
    rw [hphase] at h
    cases h
    exact refl_of R t
  | ok v =>
    rw [hphase] at h
    cases h
    exact hR.enter hphase

include hdrain

/-- A digest respects what its drains and passes respect. -/
lemma leads_digest {s : ScopeId} (hpass : Leads R (E.pass s)) : Leads R (E.digest s) := by
  refine (leads_enter hR .digest).bind fun _ => (Leads.change fun _ => hR.start).bind fun _ => ?_
  refine (hdrain .apply).bind fun _ => (Leads.read _).bind fun ttl => ?_
  refine (leads_passes (hdrain .async) hpass ttl).bind fun settled => ?_
  refine (Leads.change fun _ => hR.leave).bind fun _ => ?_
  cases settled with
  | true => exact hdrain .postDigest
  | false => exact .throw _

omit hdrain in
/-- An apply respects what its body and the digest after it respect. -/
lemma leads_apply (hdigest : Leads R (E.digest rootId)) {body : Routine κ σ Value}
    (hbody : Leads R body) : Leads R (E.apply body) := by
  refine (leads_enter hR .apply).bind fun _ => hbody.attempt.bind fun result => ?_
  refine (Leads.change fun _ => hR.leave).bind fun _ => ?_
  exact hdigest.bind fun _ => .ofExcept result

/-- What drains, passes, the delivery of events and the bodies of applies respect is heeded. -/
lemma heeds_of_proceeds (hpass : ∀ s, Leads R (E.pass s))
    (hdeliver : ∀ e name args s, Leads R (E.deliver e name args s))
    (hbody : ∀ procedure s, Leads R (E.call procedure (.body s))) : E.Heeds R :=
  have hdigest := leads_digest hR hdrain (hpass rootId)
  have happly : Leads R E.applyQueued :=
    leads_apply hR hdigest ((hdrain .apply).bind fun _ => .pure _)
  { deliver := hdeliver
    body := hbody
    digest := fun s => leads_digest hR hdrain (hpass s)
    apply := fun _ => leads_apply hR hdigest
    flush := leads_flush hR.toPermits hR.tick hdigest happly
    advance := leads_advance hR.toPermits hR.tick hdigest happly }

end Proceeding

/-- An engine whose procedures respect a relation that holds across every single change does so
too. -/
lemma tame_of_digests (hR : Digests R)
    (hcall : ∀ procedure how, Leads R (E.invoke procedure how)) : E.Tame R :=
  have hheeds := heeds_of_proceeds hR.proceeds (leads_drain hR.toDrains hcall)
    (leads_pass hR.toPasses hcall) (leads_deliver hR.toAdmits.allows hcall)
    fun _ _ => leads_call hR.toAdmits.allows hcall _ _
  { invoke := hcall
    digest := hheeds.digest
    apply := hheeds.apply
    flush := hheeds.flush
    advance := hheeds.advance }

end Engine

/-- Whatever a host does with a tree respects a relation that holds across every single change. -/
theorem Host.tame_of_digests {R : Tree κ σ → Tree κ σ → Prop} [IsPreorder (Tree κ σ) R]
    (H : Host κ σ) (hR : Digests R) (limit : ℕ) : (H.engine limit).Tame R :=
  H.tame hR.toAdmits (fun _ hcall => Engine.tame_of_digests hR hcall) limit

end DataBinding
