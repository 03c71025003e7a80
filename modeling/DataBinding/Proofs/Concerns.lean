import DataBinding.Proofs.Retention
import DataBinding.Proofs.Rounds

/-!
# What concerns a part of a tree

Many statements about runs are about a few watchers of the tree, or about a group, and about what
they have come to see and to tell.  A concern names these watchers and groups, and says what is kept
as long as nothing happens to them (`Concern`).  It is lawful if it keeps that across each single
change that is none of theirs (`Concern.Lawful`).

Inside of a phase no pass begins and no task is taken, but for what the phase itself goes through.
So there all is aside that procedures do (`Host.inPhase_aside`), and so are the visits of other
watchers (`Host.inPhase_aside_visit`).

A run goes through many phases, and a way is a relation that holds across all that is aside, across
the visits of the watchers and across the calls of the groups (`Concern.Ways`).  Then it holds
across every run (`Concern.Ways.way_of_run`).
-/

namespace DataBinding

open Compute (Leads runOn runOn_bind_cases)
open DataBinding.Tree (Grows InPhase Interlude)

variable {κ σ α : Type}

/-- Whether a step is noted by passes alone. -/
def Step.ofPass : Step κ → Bool
  | .pass _ | .checked _ => true
  | _ => false

/-- Some watchers and groups of a tree, and what is kept as long as nothing happens to them. -/
structure Concern (κ σ : Type) where
  watcher : WatcherId → WatchKind κ → Prop
  group : GroupId → Prop
  keeps : Tree κ σ → Tree κ σ → Prop

namespace Concern

variable {C : Concern κ σ} {t u v : Tree κ σ} {w : WatcherId}

/-- What the concern keeps is kept across every single change that is none of its watchers and
groups. -/
structure Lawful (C : Concern κ σ) : Prop where
  inert : ∀ {t u}, u.watchers = t.watchers → u.groups = t.groups → u.queues = t.queues →
    (u.journal = t.journal ∨
      ∃ step : Step κ, step.ofPass = false ∧ u.journal = step :: t.journal) → C.keeps t u
  enqueue : ∀ t q s {work}, (∀ g, work = .group g → ¬ C.group g) → C.keeps t (t.enqueue q s work)
  dequeue : ∀ {t u q task}, t.dequeue? q = some (task, u) →
    (∀ g, task.work = .group g → ¬ C.group g) → C.keeps t u
  addWatcher : ∀ t s {kind} byValue, kind.group? = none → kind.forget = kind →
    C.keeps t (t.addWatcher s kind byValue).2
  formGroup : ∀ t s watches listener, C.keeps t (t.formGroup s watches listener).2
  removeWatcher : ∀ t w, C.keeps t (t.removeWatcher w)
  checked : ∀ {t w watcher}, t.watcher? w = some watcher → ¬ C.watcher w watcher.kind →
    C.keeps t (t.note (.checked w))
  setKind : ∀ {t w watcher kind}, t.watcher? w = some watcher → ¬ C.watcher w watcher.kind →
    kind.forget = watcher.kind.forget → C.keeps t (t.setKind w kind)
  record : ∀ {t u w watcher new change}, t.watcher? w = some watcher →
    ¬ C.watcher w watcher.kind → t.record w new = some (change, u) → C.keeps t u
  modifyGroup : ∀ t {g} f, ¬ C.group g → C.keeps t (t.modifyGroup g f)
  watcher_of_forget : ∀ {w kind kind'}, kind'.forget = kind.forget → C.watcher w kind →
    C.watcher w kind'
  watcher_of_collection : ∀ {w watch listener state watch' listener' state'},
    C.watcher w (.collection watch listener state) →
      C.watcher w (.collection watch' listener' state')
  watcher_of_group : ∀ {w kind g}, kind.group? = some g → C.group g → C.watcher w kind

/-- What happens is none of the concern. -/
structure Aside (C : Concern κ σ) (t u : Tree κ σ) : Prop where
  grows : Grows t u
  keeps : C.keeps t u

instance [IsPreorder (Tree κ σ) C.keeps] : IsPreorder (Tree κ σ) C.Aside where
  refl t := ⟨refl_of Grows t, refl_of C.keeps t⟩
  trans _ _ _ h h' := ⟨trans_of Grows h.grows h'.grows, trans_of C.keeps h.keeps h'.keeps⟩

/-! ## Single changes -/

section Single

variable (hC : C.Lawful)

include hC

lemma Lawful.armApply (t : Tree κ σ) : C.keeps t t.armApply := by
  obtain ⟨deferral, applyFlush, h⟩ := Tree.armApply_eq t
  rw [h]
  exact hC.inert rfl rfl rfl (.inl rfl)

lemma Lawful.aside_called (t : Tree κ σ) (procedure : κ) (how : Invocation) :
    C.Aside t (t.note (.called procedure how)) :=
  ⟨.of_frame rfl, hC.inert rfl rfl rfl (.inr ⟨_, rfl, rfl⟩)⟩

lemma Lawful.aside_removeWatcher (t : Tree κ σ) (w : WatcherId) : C.Aside t (t.removeWatcher w) :=
  ⟨(Tree.Edit.removeWatcher t w).grows, hC.removeWatcher t w⟩

lemma Lawful.aside_mark (t : Tree κ σ) (w : WatcherId) : C.Aside t { t with lastDirty := some w } :=
  ⟨.of_frame rfl, hC.inert rfl rfl rfl (.inl rfl)⟩

lemma Lawful.aside_tick (h : t.Tick u) : C.Aside t u := by
  refine ⟨h.grows, ?_⟩
  rcases h.eq_or_eq with ⟨_, _, rfl⟩ | ⟨_, _, rfl⟩
  · exact hC.inert rfl rfl rfl (.inr ⟨_, rfl, rfl⟩)
  · exact hC.inert rfl rfl rfl (.inl rfl)

lemma Lawful.aside_entering (t : Tree κ σ) (phase : Phase) : C.Aside t (t.entering phase) :=
  ⟨.of_frame rfl, hC.inert rfl rfl rfl (.inr ⟨_, rfl, rfl⟩)⟩

lemma Lawful.aside_leave (t : Tree κ σ) (phase : Phase) : C.Aside t (t.leave phase) :=
  ⟨.of_frame rfl, hC.inert rfl rfl rfl (.inr ⟨_, rfl, rfl⟩)⟩

lemma Lawful.aside_begun (t : Tree κ σ) : C.Aside t t.begun := by
  obtain ⟨applyFlush, deferral, h⟩ := Engine.begun_cases t
  refine ⟨.of_frame (Engine.frame_begun t), ?_⟩
  rw [h]
  exact hC.inert rfl rfl rfl (.inr ⟨_, rfl, rfl⟩)

lemma Lawful.aside_tearDown (t : Tree κ σ) (s : ScopeId) : C.Aside t (t.tearDown s) := by
  refine ⟨(Tree.Drift.tearDown t s).grows, ?_⟩
  obtain ⟨_, h⟩ := Tree.tearDown_eq_scopes t s
  rw [h]
  exact hC.inert rfl rfl rfl (.inl rfl)

lemma Lawful.aside_of_dequeue? {q : Queue} {task : Task κ} (h : t.dequeue? q = some (task, u))
    (hwork : ∀ g, task.work = .group g → ¬ C.group g) : C.Aside t u :=
  ⟨.of_frame (Tree.frame_of_dequeue? h), hC.dequeue h hwork⟩

lemma Lawful.aside_setKind {watcher : Watcher κ} {kind : WatchKind κ}
    (hw : t.watcher? w = some watcher) (hother : ¬ C.watcher w watcher.kind)
    (hkind : kind.forget = watcher.kind.forget) : C.Aside t (t.setKind w kind) :=
  ⟨.of_frame (Tree.frame_setKind hw hkind), hC.setKind hw hother hkind⟩

lemma Lawful.aside_modifyGroup (t : Tree κ σ) {g : GroupId} (f : Group κ → Group κ)
    (hg : ¬ C.group g) : C.Aside t (t.modifyGroup g f) :=
  ⟨.of_frame rfl, hC.modifyGroup t f hg⟩

lemma Lawful.aside_record {watcher : Watcher κ} {new : Value} {change : Option Change}
    (hw : t.watcher? w = some watcher) (hother : ¬ C.watcher w watcher.kind)
    (h : t.record w new = some (change, u)) : C.Aside t u :=
  ⟨.of_frame (Tree.frame_record h), hC.record hw hother h⟩

/-- A watcher that is none of the concern stays so. -/
lemma Lawful.not_watcher_of_grows {watcher watcher' : Watcher κ} (h : t.Grows u)
    (hw : t.watcher? w = some watcher) (hw' : u.watcher? w = some watcher')
    (hother : ¬ C.watcher w watcher.kind) : ¬ C.watcher w watcher'.kind := by
  obtain ⟨watcher'', hw'', hsucceeds⟩ := h.later.watcher w watcher hw
  obtain rfl := Option.some.inj (hw'.symm.trans hw'')
  exact fun hours => hother (hC.watcher_of_forget hsucceeds.kind.symm hours)

variable [IsPreorder (Tree κ σ) C.keeps]

lemma Lawful.queueAsync (t : Tree κ σ) (s : ScopeId) {work : Work κ}
    (hwork : ∀ g, work = .group g → ¬ C.group g) : C.keeps t (t.queueAsync s work) := by
  obtain ⟨deferral, h⟩ := Tree.queueAsync_eq t s work
  have hwoken : C.keeps (t.enqueue .async s work) { t.enqueue .async s work with deferral } :=
    hC.inert rfl rfl rfl (.inl rfl)
  rw [h]
  exact trans_of C.keeps (hC.enqueue t .async s hwork) hwoken

lemma Lawful.edit (h : t.Edit u) (hkept : t.Preserves u) : C.keeps t u := by
  have hnone : ∀ {work : Work κ}, work.group? = none → ∀ g, work = .group g → ¬ C.group g := by
    rintro work hwork g rfl
    cases hwork
  cases h with
  | reported e => exact hC.inert rfl rfl rfl (.inr ⟨_, rfl, rfl⟩)
  | modifyGroup g f =>
    have hgroups : (t.modifyGroup g f).groups = t.groups := by
      refine Array.ext_getElem? fun i => ?_
      cases hi : t.groups[i]? with
      | some group => exact hkept.group hi
      | none =>
        rw [Tree.modifyGroup, Array.getElem?_modify, hi]
        split <;> rfl
    exact hC.inert rfl hgroups rfl (.inl rfl)
  | formGroup s watches listener => exact hC.formGroup t s watches listener
  | queueAsync s hwork => exact hC.queueAsync t s (hnone hwork)
  | queueApply s hwork =>
    exact trans_of C.keeps (hC.enqueue t .apply s (hnone hwork)) (hC.armApply _)
  | postpone s hwork => exact hC.enqueue t .postDigest s (hnone hwork)
  | armApply => exact hC.armApply t
  | @addWatcher s kind byValue hkind =>
    have hadded : (t.addWatcher s kind byValue).2.watcher? t.watchers.size =
        some { scope := s, kind, byValue } := by
      simp [Tree.addWatcher, Tree.watcher?]
    exact hC.addWatcher t s byValue hkind (hkept.fresh (Array.getElem?_eq_none le_rfl) hadded)
  | removeWatcher w => exact hC.removeWatcher t w
  | removeListener l =>
    obtain ⟨_, _, h⟩ := Tree.removeListener_eq t l
    rw [h]
    exact hC.inert rfl rfl rfl (.inl rfl)
  | _ => exact hC.inert rfl rfl rfl (.inl rfl)

lemma Lawful.concedes : Concedes C.Aside where
  edit h hkept := ⟨h.grows, hC.edit h hkept⟩
  beginDestroy h := ⟨Tree.defers_grows.beginDestroy h, hC.inert rfl rfl rfl (.inl rfl)⟩
  tearDown {t u s} hs h := by
    have hbegun : C.Aside t (t.beginDestroy s) :=
      ⟨Tree.defers_grows.beginDestroy hs, hC.inert rfl rfl rfl (.inl rfl)⟩
    exact trans_of C.Aside hbegun (trans_of C.Aside h (hC.aside_tearDown u s))
  called := hC.aside_called

lemma Lawful.aside_settle (t : Tree κ σ) (w : WatcherId) : C.Aside t (t.settle w) := by
  unfold Tree.settle
  split
  · split
    · exact hC.aside_removeWatcher t w
    · exact refl_of C.Aside t
  · exact refl_of C.Aside t

lemma Lawful.aside_queueAsync (t : Tree κ σ) (s : ScopeId) {work : Work κ}
    (hwork : ∀ g, work = .group g → ¬ C.group g) : C.Aside t (t.queueAsync s work) :=
  ⟨(Tree.Act.queueAsync t s work).grows, hC.queueAsync t s hwork⟩

end Single

/-! ## Inside of a phase -/

section Busy

variable [IsPreorder (Tree κ σ) C.keeps] (hC : C.Lawful)

include hC

/-- No request but a digest or an apply begins or ends a phase. -/
lemma Lawful.concedes_inPhase : Concedes (InPhase C.Aside) :=
  have hphase : Concedes (InPhase (Interlude (κ := κ) (σ := σ))) :=
    Tree.watches_interlude.inPhase.toAdmits.allows.concedes
  { edit := fun h hkept phase ht => ⟨(hphase.edit h hkept phase ht).1, hC.concedes.edit h hkept⟩
    beginDestroy := fun h => .of_phase_eq rfl (hC.concedes.beginDestroy h)
    tearDown := fun {t u s} hs h phase ht => by
      obtain ⟨hu, haside⟩ := h phase ht
      exact ⟨(Tree.phase_tearDown u s).trans hu, hC.concedes.tearDown hs haside⟩
    called := fun t _ _ => .of_phase_eq rfl (hC.aside_called t _ _) }

omit [IsPreorder (Tree κ σ) C.keeps] in
lemma Lawful.aside_noticeCollection {watch listener : κ} {state : Collection}
    (hother : ¬ C.watcher w (.collection watch listener state)) (t : Tree κ σ) (v : Value)
    [IsPreorder (Tree κ σ) C.keeps] : C.Aside t (t.noticeCollection w v).2 := by
  unfold Tree.noticeCollection
  split
  · next hw => exact hC.aside_setKind hw (fun hours => hother (hC.watcher_of_collection hours)) rfl
  · exact refl_of C.Aside t

end Busy

end Concern

namespace Host

variable (H : Host κ σ) {C : Concern κ σ} [IsPreorder (Tree κ σ) C.keeps] {t u : Tree κ σ}
  {w : WatcherId} {limit : ℕ}

/-- Inside of a phase all is aside that procedures do. -/
theorem inPhase_aside (hC : C.Lawful) (limit : ℕ) (procedure : κ) (how : Invocation) :
    Leads (InPhase C.Aside) ((H.engine limit).invoke procedure how) := by
  have hR := hC.concedes_inPhase
  have htick : ∀ {t u : Tree κ σ}, t.Tick u → InPhase C.Aside t u :=
    fun h => .of_phase_eq h.phase (hC.aside_tick h)
  refine H.leads_invoke_of_remove hR.toGrants
    (fun t w => .of_phase_eq (Tree.phase_removeWatcher t w) (hC.aside_removeWatcher t w))
    (fun limit hcall => ?_) limit procedure how
  exact
    { deliver := Engine.leads_deliver hR hcall
      body := fun _ _ => Engine.leads_call hR hcall _ _
      digest := Engine.inPhase_digest
      apply := fun _ _ => Engine.inPhase_apply _
      flush := Engine.leads_flush hR.toGrants htick (Engine.inPhase_digest _)
        (Engine.inPhase_apply _)
      advance := Engine.leads_advance hR.toGrants htick (Engine.inPhase_digest _)
        (Engine.inPhase_apply _) }

variable {H}

/-- To observe what a watcher watches that is none of the concern is aside. -/
lemma inPhase_aside_observe (hC : C.Lawful) {watcher : Watcher κ} {r : Except Error Value}
    (hw : t.watcher? w = some watcher) (hother : ¬ C.watcher w watcher.kind)
    (h : runOn ((H.engine limit).observe watcher.scope w watcher.kind) t = some (r, u)) :
    InPhase C.Aside t u := by
  refine Engine.related_observe_of_parts hC.concedes_inPhase (H.inPhase_aside hC limit) hw
    (fun _ _ _ hw hkind => .of_phase_eq rfl (hC.aside_setKind hw hother hkind))
    (fun hkind t v => ?_) h
  have haside := hC.aside_noticeCollection (hkind ▸ hother) t v
  refine .of_phase_eq ?_ haside
  unfold Tree.noticeCollection
  split <;> rfl

/-- What a watcher does about a change that is none of the concern is aside. -/
lemma inPhase_aside_notify (hC : C.Lawful) {watcher : Watcher κ} {change : Change}
    {r : Except Error Unit} (hw : t.watcher? w = some watcher)
    (hother : ¬ C.watcher w watcher.kind)
    (h : runOn ((H.engine limit).notify w change) t = some (r, u)) : InPhase C.Aside t u := by
  refine Engine.related_notify_of_steps hC.concedes_inPhase (H.inPhase_aside hC limit) hw
    (fun hkind => .of_phase_eq rfl (hC.aside_setKind hw hother hkind)) (fun g hg t => ?_)
    (fun _ v hv => trans_of (InPhase C.Aside) hv
      (.of_phase_eq (Tree.phase_removeWatcher v w) (hC.aside_removeWatcher v w))) h
  have hgroup : ¬ C.group g := fun hours => hother (hC.watcher_of_group hg hours)
  refine ⟨fun f => .of_phase_eq rfl (hC.aside_modifyGroup t f hgroup), fun s => ?_⟩
  refine .of_phase_eq (Tree.Act.queueAsync t s _).phase (hC.aside_queueAsync t s ?_)
  rintro _ ⟨⟩
  exact hgroup

/-- To record a change and to do something about it is aside, if the watcher is none of the
concern. -/
lemma inPhase_aside_told (hC : C.Lawful) {τ : Telling κ} {v : Tree κ σ} {r : Except Error Unit}
    (hrecord : τ.OfRecord t u)
    (hother : ∀ watcher, t.watcher? τ.id = some watcher → ¬ C.watcher τ.id watcher.kind)
    (h : runOn ((H.engine limit).notify τ.id τ.change) { u with lastDirty := some τ.id } =
      some (r, v)) : InPhase C.Aside t v := by
  obtain ⟨new, hnew⟩ := hrecord.record
  obtain ⟨before, _, hbefore, -⟩ := Tree.record_some_cases hnew
  have hrecorded := hC.aside_record hbefore (hother before hbefore) hnew
  have hmarked := trans_of C.Aside hrecorded (hC.aside_mark u τ.id)
  have hstill := hC.not_watcher_of_grows hmarked.grows hbefore hrecord.watcher_marked
    (hother before hbefore)
  have hbegun : InPhase C.Aside t { u with lastDirty := some τ.id } :=
    .of_phase_eq (show u.phase = t.phase from phase_of_record hnew) hmarked
  exact trans_of (InPhase C.Aside) hbegun
    (inPhase_aside_notify hC hrecord.watcher_marked hstill h)

/-- The visit of a watcher that is none of the concern is aside. -/
lemma inPhase_aside_visit (hC : C.Lawful) {r : Except Error Findings}
    (hother : ∀ watcher, t.watcher? w = some watcher → ¬ C.watcher w watcher.kind)
    (h : runOn ((H.engine limit).visitWatcher w) t = some (r, u)) : InPhase C.Aside t u := by
  rcases Engine.visit_parts h with ⟨-, rfl⟩ | ⟨-, watcher, r₁, v, hw, hobserve, hrest⟩
  · exact refl_of (InPhase C.Aside) u
  have hchecked : InPhase C.Aside t (t.note (.checked w)) :=
    .of_phase_eq rfl ⟨.of_frame rfl, hC.checked hw (hother watcher hw)⟩
  have hobserved := trans_of (InPhase C.Aside) hchecked
    (inPhase_aside_observe hC (t := t.note (.checked w)) hw (hother watcher hw) hobserve)
  rcases hrest with hcloses | ⟨τ, v₁, v₂, r₂, rfl, hrecord, hnotify, hcloses⟩
  · exact trans_of (InPhase C.Aside) hobserved (hcloses.related hC.concedes_inPhase.toGrants)
  · intro phase ht
    have hgrows := (hobserved phase ht).2.grows
    have htold := inPhase_aside_told hC hrecord
      (fun _ hw' => hC.not_watcher_of_grows hgrows hw hw' (hother watcher hw)) hnotify
    exact trans_of (InPhase C.Aside) (trans_of (InPhase C.Aside) hobserved htold)
      (hcloses.related hC.concedes_inPhase.toGrants) phase ht

end Host

/-! ## Ways -/

/-- The relation holds if the first tree is in the phase of a digest, and then the second one is in
it too. -/
def Tree.Digesting (Q : Tree κ σ → Tree κ σ → Prop) (t u : Tree κ σ) : Prop :=
  t.phase = some .digest → u.phase = some .digest ∧ Q t u

open DataBinding.Tree (Digesting)

instance {Q : Tree κ σ → Tree κ σ → Prop} [IsPreorder (Tree κ σ) Q] :
    IsPreorder (Tree κ σ) (Digesting Q) where
  refl t ht := ⟨ht, refl_of Q t⟩
  trans _ _ _ h h' ht := by
    obtain ⟨hu, hQ⟩ := h ht
    obtain ⟨hv, hQ'⟩ := h' hu
    exact ⟨hv, trans_of Q hQ hQ'⟩

/-- The relations hold across all that is aside, the second across the visits of watchers in a pass,
and the first across passes and tasks. -/
structure Concern.Ways (C : Concern κ σ) (H : Host κ σ) (T W : Tree κ σ → Tree κ σ → Prop) :
    Prop where
  aside : ∀ {t u}, C.Aside t u → T t u
  amid : ∀ {t u}, C.Aside t u → W t u
  visit : ∀ {limit t u w watcher r}, t.phase = some .digest → t.watcher? w = some watcher →
    C.watcher w watcher.kind → runOn ((H.engine limit).visitWatcher w) t = some (r, u) → W t u
  pass : ∀ {t u} s, t.phase = some .digest → t.queues.async = [] → W (t.note (.pass s)) u → T t u
  task : ∀ {limit t u v q task g r}, t.dequeue? q = some (task, u) → task.work = .group g →
    C.group g → (q = .async → t.phase = some .digest) →
    runOn ((H.engine limit).contained ((H.engine limit).perform task.scope task.work)) u =
      some (r, v) → T t v

namespace Concern.Ways

variable {C : Concern κ σ} [IsPreorder (Tree κ σ) C.keeps] {H : Host κ σ}
  {T W : Tree κ σ → Tree κ σ → Prop} [IsPreorder (Tree κ σ) T] [IsPreorder (Tree κ σ) W]
  {s : ScopeId} {t u : Tree κ σ} {limit : ℕ} (hC : C.Lawful) (hways : C.Ways H T W)

include hC hways

omit [IsPreorder (Tree κ σ) W] in
lemma concedes : Concedes T where
  edit h hkept := hways.aside (hC.concedes.edit h hkept)
  beginDestroy h := hways.aside (hC.concedes.beginDestroy h)
  tearDown {_ u s} hs h := trans_of T (hways.aside (hC.concedes.beginDestroy hs))
    (trans_of T h (hways.aside (hC.aside_tearDown u s)))
  called t _ _ := hways.aside (hC.aside_called t _ _)

/-! ### Passes -/

omit [IsPreorder (Tree κ σ) T] [IsPreorder (Tree κ σ) W] in
lemma digesting_visitWatcher (w : WatcherId) :
    Leads (Digesting W) ((H.engine limit).visitWatcher w) := by
  intro t r u h ht
  refine ⟨(Engine.inPhase_visitWatcher (H.governed limit) w h _ ht).1, ?_⟩
  by_cases hours : ∃ watcher, t.watcher? w = some watcher ∧ C.watcher w watcher.kind
  · obtain ⟨watcher, hw, hours⟩ := hours
    exact hways.visit ht hw hours h
  · refine hways.amid (Host.inPhase_aside_visit hC (fun watcher hw hkind => ?_) h _ ht).2
    exact hours ⟨watcher, hw, hkind⟩

omit [IsPreorder (Tree κ σ) T] in
lemma digesting_pass (hempty : t.queues.async = []) {r : Except Error Bool}
    (h : runOn ((H.engine limit).pass s) t = some (r, u)) : Digesting T t u := by
  have hscope : ∀ s, Leads (Digesting W) ((H.engine limit).visitScope s) := fun s =>
    (Leads.read _).bind fun ws => Routine.leads_inOrder (hways.digesting_visitWatcher hC) ws
  rw [Engine.pass, Compute.runOn_change_bind] at h
  have hwalk := (Routine.leads_walk hscope _ s).bind (fun _ => .pure _) h
  intro ht
  obtain ⟨hu, hvisits⟩ := hwalk ht
  exact ⟨hu, hways.pass s ht hempty hvisits⟩

/-! ### Digests and applies -/

variable (hcall : ∀ procedure how, Leads T ((H.engine limit).invoke procedure how))

include hcall

omit [IsPreorder (Tree κ σ) W] in
/-- A task is performed on the way. -/
lemma way_task {q : Queue} {task : Task κ} {r : Except Error Unit} {v : Tree κ σ}
    (hq : q = .async → t.phase = some .digest) (hnext : t.dequeue? q = some (task, u))
    (h : runOn ((H.engine limit).contained ((H.engine limit).perform task.scope task.work)) u =
      some (r, v)) : T t v := by
  by_cases hours : ∃ g, task.work = .group g ∧ C.group g
  · obtain ⟨g, hg, hours⟩ := hours
    exact hways.task hnext hg hours hq h
  · have hwork : ∀ g, task.work = .group g → ¬ C.group g := fun g hg hC => hours ⟨g, hg, hC⟩
    have hR := hways.concedes hC
    refine trans_of T (hways.aside (hC.aside_of_dequeue? hnext hwork)) ?_
    refine Engine.leads_contained hR.toGrants ?_ h
    exact Engine.leads_perform_of_settle hR hcall _
      (fun x _ t => hways.aside (hC.aside_settle t x))
      fun g hg t f => hways.aside (hC.aside_modifyGroup t f (hwork g hg))

omit [IsPreorder (Tree κ σ) W] in
lemma way_drain {q : Queue} (hq : q ≠ .async) : Leads T ((H.engine limit).drain q) :=
  Engine.leads_drain_of_task fun hnext h =>
    hways.way_task hC hcall (fun heq => absurd heq hq) hnext h

omit [IsPreorder (Tree κ σ) W] in
lemma digesting_drain (q : Queue) : Leads (Digesting T) ((H.engine limit).drain q) := by
  refine Engine.leads_drain_of_task fun {t task u r v} hnext h ht => ?_
  have hdrains := Tree.drains_interlude (κ := κ) (σ := σ) |>.inPhase
  have hrun := Engine.leads_contained hdrains.toAdmits.grants (Engine.leads_perform
    hdrains.toAdmits.allows ((H.governed limit).inPhase Tree.watches_interlude.toDefers) _ _) h
  have hphase := trans_of (InPhase Interlude) (hdrains.dequeue hnext) hrun
  exact ⟨(hphase _ ht).1, hways.way_task hC hcall (fun _ => ht) hnext h⟩

lemma digesting_round {dirty : Bool} (h : (H.engine limit).Round s dirty t u) :
    Digesting T t u := by
  obtain ⟨v, hdrain, hpass⟩ := h
  have hempty : v.queues.async = [] := Engine.tasks_of_drainWithin hdrain
  exact trans_of (Digesting T) (hways.digesting_drain hC hcall .async hdrain)
    (hways.digesting_pass hC hempty hpass)

lemma digesting_passes {n : ℕ} {r : Except Error Bool}
    (h : runOn ((H.engine limit).passes s n) t = some (r, u)) : Digesting T t u := by
  induction n generalizing t with
  | zero =>
    obtain ⟨dirty, v, hround, ⟨-, -, -, rfl⟩ | ⟨-, ⟨-, -, rfl⟩ | ⟨m, hm, -⟩⟩⟩ :=
      Engine.round_of_passes h
    · exact hways.digesting_round hC hcall hround
    · exact hways.digesting_round hC hcall hround
    · cases hm
  | succ n ih =>
    obtain ⟨dirty, v, hround, ⟨-, -, -, rfl⟩ | ⟨-, ⟨-, -, rfl⟩ | ⟨m, hm, hrest⟩⟩⟩ :=
      Engine.round_of_passes h
    · exact hways.digesting_round hC hcall hround
    · exact hways.digesting_round hC hcall hround
    · cases hm
      exact trans_of (Digesting T) (hways.digesting_round hC hcall hround) (ih hrest)

lemma way_digest (s : ScopeId) : Leads T ((H.engine limit).digest s) := by
  intro t r u h
  cases hphase : t.phase with
  | some active =>
    rw [Engine.runOn_digest_of_busy hphase] at h
    cases h
    exact refl_of T t
  | none =>
    obtain ⟨settled, v, w, happly, hpasses, hend⟩ := Engine.runOn_digest_cases hphase h
    obtain ⟨hv, hdrained⟩ := hways.digesting_drain hC hcall .apply happly (Engine.phase_begun t)
    have hpassed := (hways.digesting_passes hC hcall hpasses hv).2
    have hloop := trans_of T (hways.aside (hC.aside_begun t)) (trans_of T hdrained hpassed)
    have hleft := trans_of T hloop (hways.aside (hC.aside_leave w .digest))
    rcases hend with ⟨-, -, hpost⟩ | ⟨-, -, rfl⟩
    · exact trans_of T hleft (hways.way_drain hC hcall Queue.noConfusion hpost)
    · exact hleft

lemma way_apply {body : Routine κ σ Value} (hbody : Leads T body) :
    Leads T ((H.engine limit).apply body) := by
  intro t r u h
  cases hphase : t.phase with
  | some active =>
    rw [Engine.runOn_apply_of_busy hphase] at h
    cases h
    exact refl_of T t
  | none =>
    obtain ⟨result, v, digested, hrun, hdigest, -⟩ := Engine.runOn_apply_cases hphase h
    have hdone := trans_of T (hways.aside (hC.aside_entering t .apply)) (hbody hrun)
    have hleft := trans_of T hdone (hways.aside (hC.aside_leave v .apply))
    exact trans_of T hleft (hways.way_digest hC hcall rootId hdigest)

lemma heeds : (H.engine limit).Heeds T :=
  have hR := hways.concedes hC
  have htick : ∀ {t u : Tree κ σ}, t.Tick u → T t u := fun h => hways.aside (hC.aside_tick h)
  have happly : Leads T (H.engine limit).applyQueued :=
    hways.way_apply hC hcall ((hways.way_drain hC hcall Queue.noConfusion).bind fun _ => .pure _)
  { deliver := Engine.leads_deliver hR hcall
    body := fun _ _ => Engine.leads_call hR hcall _ _
    digest := hways.way_digest hC hcall
    apply := fun _ => hways.way_apply hC hcall
    flush := Engine.leads_flush hR.toGrants htick (hways.way_digest hC hcall rootId) happly
    advance := Engine.leads_advance hR.toGrants htick (hways.way_digest hC hcall rootId) happly }

omit hcall in
/-- Whatever a host does goes along the way. -/
theorem way_of_run {p : Program κ σ α} {r : Except Error α}
    (h : H.run limit p t = some (r, u)) : T t u := by
  have hR := hways.concedes hC
  have hremove : ∀ (t : Tree κ σ) w, T t (t.removeWatcher w) :=
    fun t w => hways.aside (hC.aside_removeWatcher t w)
  have hcall := H.leads_invoke_of_remove hR.toGrants hremove
    (fun _ hcall => hways.heeds hC hcall) limit
  exact Engine.leads_program_of_remove hR.toGrants (hways.heeds hC hcall) hremove p h

end Concern.Ways

end DataBinding
