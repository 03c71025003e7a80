import DataBinding.Proofs.Instants
import DataBinding.Proofs.Rounds
import DataBinding.Proofs.Sparing

/-!
# Runs leave trails

As long as nobody takes a watcher back, whatever a host does leads from one instant to another along
a trail (`Instant.Trail`).  Inside of a phase a request does even less: digests and applies are
refused, so it passes the watcher by.  Both together is an errand (`Tree.Errand`).

In the loop of a digest the watcher can be checked, and tell its listener of a change if it is a
one-time watch.  Such a stretch is a circuit (`Tree.Circuit`).  That nobody takes the watch back
while its expression is evaluated is certain since evaluation is an errand inside of a phase.

Every run that spares a watcher is an errand (`Host.errand_of_run`).
-/

namespace DataBinding

open Compute (Leads runOn runOn_bind_cases)
open Instant (Move Trail Orderly)

variable {κ σ α : Type} {w : WatcherId}

/-- A kind that only forgets or remembers something is that of a one-time watch still. -/
lemma WatchKind.isOneTime_of_forget {a b : WatchKind κ} (h : a.forget = b.forget) :
    a.isOneTime = b.isOneTime := by
  cases a <;> cases b <;> first | rfl | cases h

namespace Tree

variable {t u v : Tree κ σ}

instance : IsPreorder (Tree κ σ) (Bypasses w) where
  refl := .refl
  trans _ _ _ := .trans

/-- A trail leads from the one tree to the other, whatever is held on to. -/
def Trodden (w : WatcherId) (t u : Tree κ σ) : Prop :=
  ∀ holds, ∃ bs, Trail w ⟨holds, t⟩ bs ⟨holds, u⟩

/-- A trail leads from the one tree to the other, and inside of a phase the watcher is passed by. -/
structure Errand (w : WatcherId) (t u : Tree κ σ) : Prop where
  trodden : Trodden w t u
  bypasses : InPhase (Bypasses w) t u

/-- In the phase of a digest a trail leads from the one tree to the other. -/
def Circuit (w : WatcherId) (t u : Tree κ σ) : Prop :=
  t.phase = some .digest → u.phase = some .digest ∧
    ∀ holds, ∃ bs, Trail w ⟨.phase .digest :: holds, t⟩ bs ⟨.phase .digest :: holds, u⟩

instance : IsPreorder (Tree κ σ) (Trodden w) where
  refl t holds := ⟨[], .none ⟨holds, t⟩⟩
  trans _ _ _ h h' holds := by
    obtain ⟨bs, htrail⟩ := h holds
    obtain ⟨bs', htrail'⟩ := h' holds
    exact ⟨bs ++ bs', htrail.trans htrail'⟩

instance : IsPreorder (Tree κ σ) (Errand w) where
  refl t := ⟨refl_of (Trodden w) t, refl_of (InPhase (Bypasses w)) t⟩
  trans _ _ _ h h' := ⟨trans_of (Trodden w) h.trodden h'.trodden,
    trans_of (InPhase (Bypasses w)) h.bypasses h'.bypasses⟩

instance : IsPreorder (Tree κ σ) (Circuit w) where
  refl t ht := ⟨ht, fun holds => ⟨[], .none ⟨.phase .digest :: holds, t⟩⟩⟩
  trans _ _ _ h h' ht := by
    obtain ⟨hu, htrails⟩ := h ht
    obtain ⟨hv, htrails'⟩ := h' hu
    refine ⟨hv, fun holds => ?_⟩
    obtain ⟨bs, htrail⟩ := htrails holds
    obtain ⟨bs', htrail'⟩ := htrails' holds
    exact ⟨bs ++ bs', htrail.trans htrail'⟩

/-- The phase is at the end of a trail what it was at its beginning. -/
lemma Trodden.phase (h : Trodden w t u) : u.phase = t.phase := by
  cases hphase : t.phase with
  | none =>
    obtain ⟨bs, htrail⟩ := h []
    exact (htrail.orderly (hphase ▸ Orderly.idle)).of_nil
  | some phase =>
    obtain ⟨bs, htrail⟩ := h [.phase phase]
    exact (htrail.orderly (hphase ▸ Orderly.busy phase)).of_phase.2

lemma Trodden.circuit (h : Trodden w t u) : Circuit w t u :=
  fun ht => ⟨h.phase.trans ht, fun _ => h _⟩

lemma Errand.circuit (h : Errand w t u) : Circuit w t u := h.trodden.circuit

lemma Bypasses.errand (h : Bypasses w t u) : Errand w t u where
  trodden _ := ⟨_, (Move.bypass h).trail⟩
  bypasses := .of_phase_eq h.phase h

lemma concedes_errand : Concedes (Errand (κ := κ) (σ := σ) w) where
  edit h hkept := (h.bypasses (hkept.isActive w)).errand
  beginDestroy {t s} _ := (bypasses_beginDestroy t s).errand
  tearDown {t u s} _ h := trans_of (Errand w) (trans_of (Errand w)
    (bypasses_beginDestroy t s).errand h) (bypasses_tearDown u s).errand
  called t _ _ := (bypasses_note t _).errand

/-- What a watcher keeps for itself passes one-time watches by, if it is none. -/
lemma errand_setKind {q : WatcherId} {watcher : Watcher κ} {kind : WatchKind κ}
    (hq : t.watcher? q = some watcher) (hother : q = w → watcher.kind.isOneTime = false)
    (hkind : kind.forget = watcher.kind.forget) : Errand w t (t.setKind q kind) := by
  refine (bypasses_setKind (fun heq watcher' hw => ?_) fun heq => ?_).errand
  · subst heq
    obtain rfl := Option.some.inj (hq.symm.trans hw)
    exact hother rfl
  · rw [WatchKind.isOneTime_of_forget hkind]
    exact hother heq

end Tree

open DataBinding.Tree (Bypasses Trodden Errand Circuit concedes_errand errand_setKind InPhase)

namespace Engine

variable {E : Engine κ σ} {t u : Tree κ σ}
  (hcall : ∀ procedure how, Leads (Errand w) (E.invoke procedure how))

include hcall

/-! ## Tasks -/

/-- A task ends the watch, or it is performed on an errand. -/
lemma trodden_task {q : Queue} {task : Task κ} {r : Except Error Unit} {v : Tree κ σ}
    (hnext : t.dequeue? q = some (task, u))
    (h : runOn (E.contained (E.perform task.scope task.work)) u = some (r, v)) :
    Trodden w t v := by
  by_cases hwork : task.work = .settle w
  · rw [hwork] at h
    cases h
    exact fun _ => ⟨_, (Move.settle hnext hwork).trail⟩
  · refine trans_of (Trodden w) (Tree.bypasses_of_dequeue? hnext hwork).errand.trodden ?_
    refine Errand.trodden (leads_contained concedes_errand.toGrants ?_ h)
    refine leads_perform_of_settle concedes_errand hcall _ (fun x hx t => Bypasses.errand ?_)
      fun g _ t f => (Tree.Edit.modifyGroup t g f |>.bypasses id).errand
    -- the task is to end another watch
    have hne : x ≠ w := fun heq => hwork (heq ▸ hx)
    rcases Tree.settle_cases t x with ⟨_, -, -, h⟩ | ⟨h, -⟩ <;> rw [h]
    · exact Tree.bypasses_removeWatcher_of_ne t hne
    · exact .refl t

lemma trodden_drain (q : Queue) : Leads (Trodden w) (E.drain q) :=
  leads_drain_of_task (trodden_task hcall)

/-! ## Passes -/

/-- What a watcher does about a change is an errand, unless it is the one-time watch. -/
lemma errand_notify {x : WatcherId} {watcher : Watcher κ} {change : Change}
    {r : Except Error Unit} (hdigest : t.phase = some .digest) (hx : t.watcher? x = some watcher)
    (hother : x = w → watcher.kind.isOneTime = false)
    (h : runOn (E.notify x change) t = some (r, u)) : Errand w t u := by
  refine related_notify_of_steps concedes_errand hcall hx (errand_setKind hx hother)
    (fun g _ t => ⟨fun f => (Tree.Edit.modifyGroup t g f |>.bypasses id).errand,
      fun s => (Tree.bypasses_queueAsync t s _).errand⟩)
    (fun _ v hv => trans_of (Errand w) hv (Bypasses.errand ?_)) h
  -- the watch of a constant ends itself
  refine Tree.bypasses_removeWatcher fun heq watcher' hw => .inl ?_
  subst heq
  obtain ⟨watcher'', hw'', hsame⟩ := (hv.bypasses _ hdigest).2.kept hx
  obtain rfl := Option.some.inj (hw.symm.trans hw'')
  exact hsame.trans (Watcher.oneTime?_eq_none_iff.2 (hother rfl))

omit hcall in
/-- The telling of a one-time watch is the call of its listener, and what becomes of it then. -/
lemma notify_oneTime {τ : Telling κ} {r : Except Error Unit} {v : Tree κ σ}
    (hw : u.watcher? τ.id = some τ.watcher) (hkind : τ.watcher.kind.isOneTime = true)
    (h : runOn (E.notify τ.id τ.change) { u with lastDirty := some τ.id } = some (r, v)) :
    ∃ procedure how r₁ v₁, runOn (E.invoke procedure how) (τ.begun u) = some (r₁, v₁) ∧
      v = τ.finished v₁ := by
  obtain ⟨e, listener, reported, hoften, -, hbegun⟩ := τ.exists_begun (σ := σ) hkind
  rw [notify, Compute.runOn_read_bind,
    show Tree.watcher? { u with lastDirty := some τ.id } τ.id = some τ.watcher from hw] at h
  replace h : runOn (E.react τ.watcher.scope τ.id τ.change τ.watcher.kind)
    { u with lastDirty := some τ.id } = some (r, v) := h
  rw [hoften, react, reactOneTime, Compute.runOn_change_bind] at h
  obtain ⟨result, v₁, htell, hrest⟩ := Compute.runOn_attempt_bind_cases h
  obtain ⟨r₁, hcalled, -⟩ := Compute.runOn_discard_cases htell
  rw [call, Compute.runOn_change_bind, ← hbegun] at hcalled
  refine ⟨_, _, r₁, v₁, hcalled, ?_⟩
  have hliteral : τ.literal = e.isLiteral := by rw [Telling.literal, hoften]
  rw [Compute.runOn_read_bind] at hrest
  rw [Telling.finished, Telling.settledIn, hliteral]
  cases hsettled : v₁.store.heap.settled e.isLiteral τ.change.new with
  | true =>
    rw [hsettled] at hrest
    cases hrest
    rfl
  | false =>
    rw [hsettled] at hrest
    cases hrest
    rfl

/-- The one-time watch tells its listener of a change. -/
lemma circuit_tell {τ : Telling κ} {r : Except Error Unit} {v : Tree κ σ} (hid : τ.id = w)
    (hactive : t.isActive w = true) (hrecord : τ.OfRecord t u)
    (hkind : τ.watcher.kind.isOneTime = true)
    (h : runOn (E.notify τ.id τ.change) { u with lastDirty := some τ.id } = some (r, v)) :
    Circuit w t v := by
  intro ht
  obtain ⟨procedure, how, r₁, v₁, hcalled, rfl⟩ := notify_oneTime hrecord.watcher hkind h
  have hbegun : (τ.begun u).phase = some .digest :=
    (Telling.begun_of_record hrecord hkind).1.trans ht
  have herrand := hcall procedure how hcalled
  refine ⟨(τ.bypasses_finished v₁ (w := w)).phase.trans (herrand.trodden.phase.trans hbegun),
    fun holds => ?_⟩
  obtain ⟨bs, htrail⟩ := herrand.trodden (.telling τ :: .phase .digest :: holds)
  exact ⟨_, ((Move.tell hid hactive hrecord hkind).trail.trans htrail).trans Move.told.trail⟩

/-- What a watcher does about a change that has just been recorded. -/
lemma circuit_notify {τ : Telling κ} {r : Except Error Unit} {v : Tree κ σ}
    (hactive : τ.id = w → τ.watcher.kind.isOneTime = true → t.isActive w = true)
    (hrecord : τ.OfRecord t u)
    (h : runOn (E.notify τ.id τ.change) { u with lastDirty := some τ.id } = some (r, v)) :
    Circuit w t v := by
  by_cases hself : τ.id = w ∧ τ.watcher.kind.isOneTime = true
  · obtain ⟨hid, hkind⟩ := hself
    exact circuit_tell hcall hid (hactive hid hkind) hrecord hkind h
  · have hother : τ.id = w → τ.watcher.kind.isOneTime = false :=
      fun hid => Bool.eq_false_of_not_eq_true fun hkind => hself ⟨hid, hkind⟩
    obtain ⟨new, hnew⟩ := hrecord.record
    obtain ⟨before, hbefore, hkept, -⟩ := hrecord.exists_watcher?
    have hrecorded : Bypasses w t u := by
      refine Tree.bypasses_record hnew fun hid watcher hw => ?_
      subst hid
      obtain rfl := Option.some.inj (hw.symm.trans hbefore)
      exact hkept ▸ hother rfl
    have hmarked := hrecorded.trans (Tree.bypasses_mark u τ.id)
    intro ht
    have hnotified := errand_notify hcall (hmarked.phase.trans ht) hrecord.watcher_marked hother h
    exact (trans_of (Errand w) hmarked.errand hnotified).circuit ht

lemma circuit_visitWatcher (x : WatcherId) : Leads (Circuit w) (E.visitWatcher x) := by
  intro t r u h
  rcases visit_parts h with ⟨-, rfl⟩ | ⟨hactive, watcher, r₁, v, hx, hobserve, hrest⟩
  · exact refl_of (Circuit w) u
  have hobserved : Errand w t v := trans_of (Errand w) (Tree.bypasses_note t _).errand
    (related_observe_of_setKind (fun hw hkind => errand_setKind hw fun _ => hkind) concedes_errand
      hcall (t := t.note (.checked x)) hx hobserve)
  rcases hrest with hcloses | ⟨τ, v₁, v₂, r₂, rfl, hrecord, hnotify, hcloses⟩
  · have hclosed : Errand w v u := hcloses.related concedes_errand.toGrants
    exact (trans_of (Errand w) hobserved hclosed).circuit
  · have hclosed : Errand w v₂ u := hcloses.related concedes_errand.toGrants
    intro ht
    -- evaluation does not take the watch back
    have hon : τ.id = w → τ.watcher.kind.isOneTime = true → v.isActive w = true := by
      rintro rfl hkind
      obtain ⟨before, hbefore, hkept, -⟩ := hrecord.exists_watcher?
      exact (hobserved.bypasses _ ht).2.isActive hbefore (hkept ▸ hkind) hactive
    have hnotified := circuit_notify hcall hon hrecord hnotify
    exact trans_of (Circuit w) (trans_of (Circuit w) hobserved.circuit hnotified) hclosed.circuit ht

lemma circuit_pass (s : ScopeId) : Leads (Circuit w) (E.pass s) := by
  have hscope : ∀ s, Leads (Circuit w) (E.visitScope s) := fun s =>
    (Leads.read _).bind fun ws => Routine.leads_inOrder (circuit_visitWatcher hcall) ws
  exact (Leads.change fun t => (Tree.bypasses_note t _).errand.circuit).bind fun _ =>
    (Routine.leads_walk hscope _ s).bind fun _ => .pure _

/-! ## Digests and applies -/

/-- A digest that is accepted holds on to its phase while it goes round. -/
lemma trodden_digest {s : ScopeId} {r : Except Error Unit} (hidle : t.phase = none)
    (h : runOn (E.digest s) t = some (r, u)) : Trodden w t u := by
  intro holds
  obtain ⟨settled, v, v', happly, hpasses, hend⟩ := runOn_digest_cases hidle h
  have hbegun : Bypasses w (t.entering .digest) t.begun := by
    obtain ⟨_, _, hcancel⟩ := Tree.cancelApply_eq { t.entering .digest with lastDirty := none }
    refine (congrArg (Bypasses w (t.entering .digest)) hcancel).mpr ?_
    exact .of_eq rfl rfl rfl rfl
  have hdrained := trans_of (Trodden w) hbegun.errand.trodden (trodden_drain hcall .apply happly)
  have hv : v.phase = some .digest := hdrained.phase
  obtain ⟨bs₁, htrail₁⟩ := hdrained (.phase .digest :: holds)
  obtain ⟨-, hpassed⟩ := leads_passes (fun _ _ _ h => (trodden_drain hcall .async h).circuit)
    (circuit_pass hcall s) _ hpasses hv
  obtain ⟨bs₂, htrail₂⟩ := hpassed holds
  have hloop := (((Move.enter hidle .digest).trail.trans htrail₁).trans htrail₂).trans
    Move.leave.trail
  rcases hend with ⟨-, -, hpost⟩ | ⟨-, -, rfl⟩
  · obtain ⟨bs₃, htrail₃⟩ := trodden_drain hcall .postDigest hpost holds
    exact ⟨_, hloop.trans htrail₃⟩
  · exact ⟨_, hloop⟩

lemma errand_digest (s : ScopeId) : Leads (Errand w) (E.digest s) := by
  intro t r u h
  refine ⟨?_, inPhase_digest s h⟩
  cases hphase : t.phase with
  | none => exact trodden_digest hcall hphase h
  | some active =>
    rw [runOn_digest_of_busy hphase] at h
    cases h
    exact refl_of (Trodden w) t

/-- An apply that is accepted holds on to its phase while its body runs. -/
lemma errand_apply {body : Routine κ σ Value} (hbody : Leads (Trodden w) body) :
    Leads (Errand w) (E.apply body) := by
  intro t r u h
  refine ⟨?_, inPhase_apply body h⟩
  cases hphase : t.phase with
  | some active =>
    rw [runOn_apply_of_busy hphase] at h
    cases h
    exact refl_of (Trodden w) t
  | none =>
    intro holds
    obtain ⟨result, v, digested, hrun, hdigest, -⟩ := runOn_apply_cases hphase h
    obtain ⟨bs₁, htrail₁⟩ := hbody hrun (.phase .apply :: holds)
    obtain ⟨bs₂, htrail₂⟩ := (errand_digest hcall rootId hdigest).trodden holds
    exact ⟨_, (((Move.enter hphase .apply).trail.trans htrail₁).trans Move.leave.trail).trans
      htrail₂⟩

lemma heeds_errand : E.Heeds (Errand w) :=
  have htick : ∀ {t u : Tree κ σ}, t.Tick u → Errand w t u := fun h => h.bypasses.errand
  have happly : Leads (Errand w) E.applyQueued :=
    errand_apply hcall ((trodden_drain hcall .apply).bind fun _ => .pure _)
  { deliver := leads_deliver concedes_errand hcall
    body := fun _ _ => leads_call concedes_errand hcall _ _
    digest := errand_digest hcall
    apply := fun _ hbody => errand_apply hcall fun _ _ _ h => (hbody h).trodden
    flush := leads_flush concedes_errand.toGrants htick (errand_digest hcall rootId) happly
    advance := leads_advance concedes_errand.toGrants htick (errand_digest hcall rootId) happly }

end Engine

namespace Host

variable (H : Host κ σ) (w) (limit : ℕ)

/-- Whatever is done while the watcher is spared is an errand. -/
lemma errand_sparing : ((H.sparing w).engine limit).Heeds (Errand w) ∧ ∀ p : Program κ σ α,
    Leads (Errand w) (((H.sparing w).engine limit).execute (p.sparing w)) :=
  H.leads_sparing concedes_errand.toGrants
    (fun _ hv t => (Tree.bypasses_removeWatcher_of_ne t hv).errand)
    (fun _ hcall => Engine.heeds_errand hcall) limit

variable {H w limit}

/-- Every run that spares the watcher leaves a trail. -/
theorem trail_of_run {p : Program κ σ α} {t u : Tree κ σ} {r : Except Error α}
    (h : (H.sparing w).run limit (p.sparing w) t = some (r, u)) (holds : List (Hold κ)) :
    ∃ bs, Trail w ⟨holds, t⟩ bs ⟨holds, u⟩ :=
  ((H.errand_sparing w limit).2 p h).trodden holds

end Host

end DataBinding
