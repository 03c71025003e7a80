import DataBinding.Proofs.Likeness
import DataBinding.Proofs.Readers
import DataBinding.Proofs.Steadiness
import DataBinding.Proofs.Waiting
import DataBinding.Proofs.Yields

/-!
# The only watch of a tree

The only watcher of a tree watches a container literal, and its listener writes nothing.  A visit
that finds the watcher dirty leaves it calm: what it recorded is what it will observe again, or it
was taken away (`Engine.exists_calms_visitWatcher`).

How that comes about depends on how the literal is watched.  A constant is reported once.  A literal
that is watched through its inputs is not evaluated again, since its inputs have the very same
values.  One that is watched by value is evaluated to fresh containers with the same contents.
-/

namespace DataBinding

open Compute (runOn)

variable {κ σ : Type}

/-! ## Lone watches -/

/-- The only watcher of the tree is `w`, which watches the expression in the scope `a`. -/
structure Tree.LoneWatch (t : Tree κ σ) (w : WatcherId) (a : ScopeId) (e : Expression)
    (listener : κ) (byValue : Bool) : Prop where
  alone : ∀ {s v}, v ∈ (t.scope s).watchers → v = w
  watcher : ∃ x, t.watcher? w = some x ∧ x.scope = a ∧ x.byValue = byValue ∧
    x.kind.forget = (WatchKind.ofExpression e listener byValue).forget

/-- Told of a change the listener comes to an end, and writes nothing. -/
def Engine.Harmless (E : Engine κ σ) (listener : κ) : Prop :=
  ∀ s change t, ∃ r u, runOn (E.invoke listener (.changed s change)) t = some (r, u) ∧
    t.Untouched u

/-- What the watcher of an expression recorded last is what it will observe, if the expression has
values with the frozen form `f` and its inputs have the given values. -/
def Watcher.Abreast (f : Frozen) (inputs : List Value) (x : Watcher κ) : Prop :=
  match x.kind with
  | .inputs _ _ none => False
  | .inputs _ _ (some m) => m.covers inputs = true ∧ x.last = some (.leaf m.result)
  | _ => x.last = some f

/-- The watcher has nothing to report any more. -/
def Tree.AtRest (w : WatcherId) (f : Frozen) (inputs : List Value) (t : Tree κ σ) : Prop :=
  ∃ x, t.watcher? w = some x ∧ (x.active = true → x.Abreast f inputs)

variable {E : Engine κ σ} {t u v : Tree κ σ} {w : WatcherId} {a s : ScopeId} {e : Expression}
  {listener : κ} {byValue : Bool} {f : Frozen} {inputs : List Value} {x : Watcher κ}

/-- The watcher is what it was but for its records and memories. -/
lemma Tree.LoneWatch.of_steady (hlone : t.LoneWatch w a e listener byValue)
    (hsteady : t.Steady w u) : u.LoneWatch w a e listener byValue := by
  obtain ⟨x, hx, rfl, rfl, hkind⟩ := hlone.watcher
  obtain ⟨y, hy, hscope, hbyValue, hsame⟩ := hsteady.exists_watcher hx
  exact ⟨fun hv => hlone.alone (hsteady.watchers _ hv), y, hy, hscope, hbyValue,
    hsame.trans hkind⟩

namespace Watcher

lemma abreast_iff_of_not_inputs (hkind : ∀ e listener memo, x.kind ≠ .inputs e listener memo) :
    x.Abreast f inputs ↔ x.last = some f := by
  unfold Abreast
  split
  · next h => exact absurd h (hkind _ _ _)
  · next h => exact absurd h (hkind _ _ _)
  · exact Iff.rfl

lemma abreast_iff_of_inputs {memo : Option Memo} (hkind : x.kind = .inputs e listener memo) :
    x.Abreast f inputs ↔
      ∃ m, memo = some m ∧ m.covers inputs = true ∧ x.last = some (.leaf m.result) := by
  unfold Abreast
  rw [hkind]
  cases memo <;> simp

end Watcher

namespace Expression.IsContainerLiteral

/-- The ways in which a container literal is watched. -/
lemma kind_cases (he : e.IsContainerLiteral) {kind : WatchKind κ}
    (hkind : kind.forget = (WatchKind.ofExpression e listener byValue).forget) :
    e.isConstant = true ∧ kind = .constant e listener ∨
      e.isConstant = false ∧ e.oneTime = true ∧ (∃ reported, kind = .oneTime e listener reported) ∨
      e.isConstant = false ∧ e.oneTime = false ∧ byValue = false ∧
        (∃ memo, kind = .inputs e listener memo) ∨
      e.isConstant = false ∧ e.oneTime = false ∧ byValue = true ∧
        kind = .expression e listener := by
  unfold WatchKind.ofExpression at hkind
  cases hconstant : e.isConstant with
  | true => cases kind <;> simp_all [WatchKind.forget]
  | false =>
    have hinputs : e.inputs ≠ [] := he.inputs_ne_nil hconstant
    cases honeTime : e.oneTime with
    | true => cases kind <;> simp_all [WatchKind.forget]
    | false => cases byValue <;> cases kind <;> simp_all [WatchKind.forget]

end Expression.IsContainerLiteral

namespace Engine

/-! ## Observing -/

/-- In the tree `v` the watcher has observed `new` and is `y`. -/
structure Observed (w : WatcherId) (f : Frozen) (inputs : List Value) (t : Tree κ σ)
    (x : Watcher κ) (new : Value) (v : Tree κ σ) (y : Watcher κ) : Prop where
  steady : t.Steady w v
  queues : v.queues = t.queues
  watcher : v.watcher? w = some y
  active : y.active = x.active
  last : y.last = x.last
  abreast : x.Abreast f inputs →
    x.last.any (v.store.heap.agrees · new) = true ∧ y.Abreast f inputs
  recorded : ∃ frozen, v.store.heap.recorded? y.byValue new = some frozen ∧
    (x.byValue = true ∨ (∃ e listener memo, x.kind = .inputs e listener memo) →
      { y with last := some frozen }.Abreast f inputs)

lemma exists_tell (hlistener : E.Harmless listener) (s : ScopeId) (change : Change)
    (t : Tree κ σ) : ∃ r u, runOn (E.tell listener s change) t = some (r, u) ∧ t.Untouched u := by
  obtain ⟨r, u, hrun, hu⟩ := hlistener s change (t.note (.called listener (.changed s change)))
  refine ⟨r.map fun _ => (), u, ?_, (Tree.Untouched.note t _).trans hu⟩
  rw [tell, Compute.runOn_discard, call, Compute.runOn_change_bind, hrun]
  rfl

lemma untouched_afterResult (E : Engine κ σ) (r : Except Error Unit) (t : Tree κ σ) :
    t.Untouched (E.afterResult r t) := by
  cases r with
  | ok => exact .refl t
  | error e => exact ⟨.refl _, _, _, _, rfl⟩

section Observing

variable (hyields : E.Yields t a e f inputs) (hsteady : t.Steady w u)
  (hx : u.watcher? w = some x) (hscope : x.scope = a)

include hyields hsteady hx hscope

lemma exists_observed_of_evaluate
    (hobserve : E.observe x.scope w x.kind = E.evaluate x.scope e none)
    (hkind : ∀ e listener memo, x.kind ≠ .inputs e listener memo) :
    ∃ new v, runOn (E.observe x.scope w x.kind) (u.note (.checked w)) = some (.ok new, v) ∧
      Observed w f inputs u x new v x := by
  obtain ⟨new, store, hrun, hkeeps, hfreeze, hagrees, -⟩ :=
    hyields.value (u := u.note (.checked w)) (hsteady.data a) hsteady.keeps
  have hv : u.Untouched { u.note (.checked w) with store } :=
    (Tree.Untouched.note u _).trans (.withStore hkeeps)
  refine ⟨new, { u.note (.checked w) with store }, by rw [hobserve, hscope, hrun], hv.steady,
    hv.queues, hx, rfl, rfl, fun hcalm => ⟨?_, hcalm⟩, ?_⟩
  · rw [(Watcher.abreast_iff_of_not_inputs hkind).1 hcalm]
    exact hagrees
  · rcases Bool.eq_false_or_eq_true x.byValue with hbyValue | hbyValue
    · exact ⟨f, by rw [hbyValue]; exact hfreeze, fun _ =>
        (Watcher.abreast_iff_of_not_inputs (x := { x with last := some f }) hkind).2 rfl⟩
    · refine ⟨.leaf new, by rw [hbyValue]; rfl, ?_⟩
      rintro (h | ⟨e, listener, memo, h⟩)
      · exact absurd (h.symm.trans hbyValue) (by simp)
      · exact absurd h (hkind _ _ _)

lemma exists_observed_of_inputs {memo : Option Memo} (hbyValue : x.byValue = false)
    (hkind : x.kind = .inputs e listener memo) :
    ∃ new v y, runOn (E.observe x.scope w x.kind) (u.note (.checked w)) = some (.ok new, v) ∧
      Observed w f inputs u x new v y := by
  have hparts : runOn (E.evaluateInputs x.scope e) (u.note (.checked w)) =
      some (.ok inputs, u.note (.checked w)) := by
    rw [hscope]
    exact hyields.parts (u := u.note (.checked w)) (hsteady.data a) hsteady.keeps
  have hu := Tree.Untouched.note u (.checked w)
  rw [hkind, observe, observeInputs, Compute.runOn_bind_of_ok hparts]
  cases hmemo : memo.filter (·.covers inputs) with
  | some m =>
    obtain ⟨rfl, hcovers⟩ := Option.filter_eq_some_iff.1 hmemo
    refine ⟨m.result, _, x, rfl, hu.steady, hu.queues, hx, rfl, rfl, fun hcalm => ⟨?_, hcalm⟩, ?_⟩
    · obtain ⟨m', hm', -, hlast⟩ := (Watcher.abreast_iff_of_inputs hkind).1 hcalm
      cases hm'
      rw [hlast]
      exact Value.same_self _
    · refine ⟨.leaf m.result, by rw [hbyValue]; rfl, fun _ => ?_⟩
      exact (Watcher.abreast_iff_of_inputs (x := { x with last := some (.leaf m.result) }) hkind).2
        ⟨m, rfl, hcovers, rfl⟩
  | none =>
    obtain ⟨new, store, hrun, hkeeps, -⟩ :=
      hyields.value (u := u.note (.checked w)) (hsteady.data a) hsteady.keeps
    have hstored := hu.trans (.withStore hkeeps)
    let kind : WatchKind κ := .inputs e listener (some ⟨inputs, new⟩)
    have hset : Tree.Steady w { u.note (.checked w) with store }
        (Tree.setKind { u.note (.checked w) with store } w kind) := by
      refine .setKind (x := x) hx ?_
      rw [hkind]
      rfl
    refine ⟨new, _, { x with kind }, ?_, hstored.steady.trans hset, hstored.queues, ?_, rfl, rfl,
      fun hcalm => ?_, ?_⟩
    · rw [hscope, Compute.runOn_bind_of_ok hrun, Compute.runOn_change_bind]
      rfl
    · exact (Tree.watcher?_modifyWatcher_self _).trans (congrArg (Option.map _) hx)
    · obtain ⟨m, rfl, hcovers, -⟩ := (Watcher.abreast_iff_of_inputs hkind).1 hcalm
      simp [hcovers] at hmemo
    · refine ⟨.leaf new, by rw [hbyValue]; rfl, fun _ => ?_⟩
      exact (Watcher.abreast_iff_of_inputs (x := { x with kind, last := some (.leaf new) }) rfl).2
        ⟨_, rfl, Memo.covers_self _ _, rfl⟩

end Observing

/-! ## Checks -/

/-- The watcher was checked, and in the tree `v` it is `y`. -/
structure Checked (w : WatcherId) (f : Frozen) (inputs : List Value) (t : Tree κ σ)
    (x : Watcher κ) (change : Option Change) (v : Tree κ σ) (y : Watcher κ) : Prop where
  steady : t.Steady w v
  queues : v.queues = t.queues
  watcher : v.watcher? w = some y
  active : y.active = x.active
  abreast : x.Abreast f inputs → change = none ∧ y.Abreast f inputs
  recorded : change ≠ none →
    x.byValue = true ∨ (∃ e listener memo, x.kind = .inputs e listener memo) → y.Abreast f inputs

lemma runOn_check_of_observe {new : Value} (hx : u.watcher? w = some x)
    (hrun : runOn (E.observe x.scope w x.kind) (u.note (.checked w)) = some (.ok new, v)) :
    runOn (E.check w) u = (v.record w new).map fun (change, v) => (.ok change, v) := by
  have hnoted : (u.note (.checked w)).watcher? w = some x := hx
  rw [check, Compute.runOn_change_bind, Compute.runOn_read_bind, hnoted]
  exact Compute.runOn_bind_of_ok hrun

lemma Observed.exists_checked {new : Value} {y : Watcher κ}
    (h : Observed w f inputs u x new v y) (hx : u.watcher? w = some x)
    (hrun : runOn (E.observe x.scope w x.kind) (u.note (.checked w)) = some (.ok new, v)) :
    ∃ change v' z, runOn (E.check w) u = some (.ok change, v') ∧
      Checked w f inputs u x change v' z := by
  rw [runOn_check_of_observe hx hrun]
  rcases Bool.eq_false_or_eq_true (y.last.any (v.store.heap.agrees · new)) with hsame | hdiffers
  · refine ⟨none, v, y, ?_, h.steady, h.queues, h.watcher, h.active,
      fun hx => ⟨rfl, (h.abreast hx).2⟩, fun hchange => absurd rfl hchange⟩
    rw [Tree.record_of_agrees h.watcher hsame]
    rfl
  · obtain ⟨frozen, hfrozen, habreast⟩ := h.recorded
    obtain ⟨change, store, -, hkeeps, hrecord⟩ :=
      Tree.record_of_differs h.watcher hdiffers hfrozen
    have hset : v.Steady w (v.modifyWatcher w ({ · with last := some frozen })) :=
      .modifyWatcher fun _ _ => ⟨rfl, rfl, rfl⟩
    let recorded := v.modifyWatcher w ({ · with last := some frozen })
    have hstored : recorded.Untouched { recorded with store } := .withStore hkeeps
    refine ⟨some change, { recorded with store }, { y with last := some frozen },
      by rw [hrecord]; rfl, h.steady.trans (hset.trans hstored.steady), h.queues, ?_, h.active,
      fun hx => ?_, fun _ => habreast⟩
    · exact (Tree.watcher?_modifyWatcher_self _).trans (congrArg (Option.map _) h.watcher)
    · have hsame := (h.abreast hx).1
      rw [← h.last, hdiffers] at hsame
      cases hsame

section Watching

variable (he : e.IsContainerLiteral) (hlone : t.LoneWatch w a e listener byValue)
  (hyields : E.Yields t a e f inputs)

include he hlone hyields

lemma exists_checked (hsteady : t.Steady w u) (hx : u.watcher? w = some x) :
    ∃ change v y, runOn (E.check w) u = some (.ok change, v) ∧
      Checked w f inputs u x change v y := by
  obtain ⟨x', hx', hscope, hbyValue, hkind⟩ := (hlone.of_steady hsteady).watcher
  cases hx.symm.trans hx'
  have hevaluated (hobserve : E.observe x.scope w x.kind = E.evaluate x.scope e none)
      (hkind : ∀ e listener memo, x.kind ≠ .inputs e listener memo) :
      ∃ change v y, runOn (E.check w) u = some (.ok change, v) ∧
        Checked w f inputs u x change v y := by
    obtain ⟨new, v, hrun, hobserved⟩ :=
      exists_observed_of_evaluate hyields hsteady hx hscope hobserve hkind
    exact hobserved.exists_checked hx hrun
  rcases he.kind_cases hkind with ⟨-, hkind⟩ | ⟨-, -, reported, hkind⟩ |
    ⟨-, -, rfl, memo, hkind⟩ | ⟨-, -, -, hkind⟩
  · exact hevaluated (by rw [hkind]; rfl) (by simp [hkind])
  · exact hevaluated (by rw [hkind]; rfl) (by simp [hkind])
  · obtain ⟨new, v, y, hrun, hobserved⟩ :=
      exists_observed_of_inputs hyields hsteady hx hscope hbyValue hkind
    exact hobserved.exists_checked hx hrun
  · exact hevaluated (by rw [hkind]; rfl) (by simp [hkind])

end Watching

/-! ## Reactions -/

/-- The tasks for the end of a digest are the same, or there is one more, to settle the watcher. -/
def Queued (w : WatcherId) (a : ScopeId) (t u : Tree κ σ) : Prop :=
  u.queues.postDigest = t.queues.postDigest ∨
    ∃ n, u.queues.postDigest = t.queues.postDigest ++ [⟨n, a, .settle w⟩]

lemma calm_removeWatcher (hx : t.watcher? w = some x) : (t.removeWatcher w).AtRest w f inputs := by
  obtain ⟨y, hy, -⟩ := (Tree.Steady.removeWatcher t w).exists_watcher hx
  refine ⟨y, hy, fun hactive => ?_⟩
  have hinactive := t.isActive_removeWatcher_self w
  rw [Tree.isActive, hy, Option.any_some, hactive] at hinactive
  cases hinactive

lemma exists_notify (he : e.IsContainerLiteral) (hlone : t.LoneWatch w a e listener byValue)
    (hlistener : E.Harmless listener) (hx : t.watcher? w = some x)
    (habreast : e.isConstant = true ∨ x.Abreast f inputs) (change : Change) :
    ∃ r u, runOn (E.notify w change) t = some (r, u) ∧ t.Steady w u ∧ u.AtRest w f inputs ∧
      Queued w a t u := by
  obtain ⟨x', hx', rfl, -, hkind⟩ := hlone.watcher
  cases hx.symm.trans hx'
  have hnotify : runOn (E.notify w change) t = runOn (E.react x.scope w change x.kind) t := by
    rw [notify, Compute.runOn_read_bind, hx]
  rw [hnotify]
  have htold (habreast : x.Abreast f inputs) : ∃ r u,
      runOn (E.tell listener x.scope change) t = some (r, u) ∧ t.Steady w u ∧
        u.AtRest w f inputs ∧ Queued w x.scope t u := by
    obtain ⟨r, u, hrun, hu⟩ := exists_tell hlistener x.scope change t
    refine ⟨r, u, hrun, hu.steady, ⟨x, by rw [hu.watcher?, hx], fun _ => habreast⟩, .inl ?_⟩
    rw [hu.queues]
  rcases he.kind_cases hkind with ⟨-, hkind⟩ | ⟨hconstant, -, reported, hkind⟩ |
    ⟨hconstant, -, -, memo, hkind⟩ | ⟨hconstant, -, -, hkind⟩
  · obtain ⟨r, u, hrun, hu⟩ := exists_tell hlistener x.scope change t
    refine ⟨r, u.removeWatcher w, ?_, hu.steady.trans (.removeWatcher u w),
      calm_removeWatcher (by rw [hu.watcher?, hx]), .inl ?_⟩
    · rw [hkind, react, Compute.runOn_attempt_bind_of_run hrun, Compute.runOn_change_bind]
      rfl
    · rw [Tree.queues_removeWatcher, hu.queues]
  · have habreast := habreast.resolve_left (by simp [hconstant])
    have hlast := (Watcher.abreast_iff_of_not_inputs (by simp [hkind])).1 habreast
    let kind : WatchKind κ := .oneTime e listener change.new
    have hset : t.Steady w (t.setKind w kind) := .setKind hx (by rw [hkind]; rfl)
    have hy : (t.setKind w kind).watcher? w = some { x with kind } :=
      (Tree.watcher?_modifyWatcher_self _).trans (congrArg (Option.map _) hx)
    obtain ⟨r, u, hrun, hu⟩ := exists_tell hlistener x.scope change (t.setKind w kind)
    have hcalm : u.AtRest w f inputs := by
      refine ⟨{ x with kind }, by rw [hu.watcher?, hy], fun _ => ?_⟩
      exact (Watcher.abreast_iff_of_not_inputs (by simp [kind])).2 hlast
    have hqueues : u.queues = t.queues := hu.queues
    rw [hkind, react, reactOneTime, Compute.runOn_change_bind,
      Compute.runOn_attempt_bind_of_run hrun, Compute.runOn_read_bind]
    cases u.store.heap.settled e.isLiteral change.new with
    | false => exact ⟨r, u, rfl, hset.trans hu.steady, hcalm, .inl (by rw [hqueues])⟩
    | true =>
      refine ⟨r, u.enqueue .postDigest x.scope (.settle w), rfl,
        (hset.trans hu.steady).trans (.of_eq rfl rfl (.refl _) rfl rfl), hcalm,
        .inr ⟨u.queues.next, ?_⟩⟩
      rw [← hqueues]
      rfl
  · rw [hkind]
    exact htold (habreast.resolve_left (by simp [hconstant]))
  · rw [hkind]
    exact htold (habreast.resolve_left (by simp [hconstant]))

/-! ## Visits -/

/-- After a visit that found the watcher dirty there is nothing to report any more, and where there
was nothing to report it is found clean. -/
structure Calms (w : WatcherId) (a : ScopeId) (f : Frozen) (inputs : List Value) (t : Tree κ σ)
    (found : Findings) (u : Tree κ σ) : Prop where
  steady : t.Steady w u
  calm : found.dirty = true → u.AtRest w f inputs
  again : t.AtRest w f inputs → found.dirty = false ∧ u.AtRest w f inputs
  clean : found.dirty = false → u.queues.postDigest = t.queues.postDigest
  queued : Queued w a t u

namespace Calms

variable {found found' : Findings}

lemma refl (t : Tree κ σ) : Calms w a f inputs t {} t :=
  ⟨.refl w t, fun h => absurd h Bool.false_ne_true, fun h => ⟨rfl, h⟩, fun _ => rfl, .inl rfl⟩

lemma trans (h : Calms w a f inputs t found u) (h' : Calms w a f inputs u found' v) :
    Calms w a f inputs t ⟨found.dirty || found'.dirty, found'.ended⟩ v := by
  cases hdirty : found.dirty with
  | true =>
    obtain ⟨hclean, hcalm⟩ := h'.again (h.calm hdirty)
    refine ⟨h.steady.trans h'.steady, fun _ => hcalm, fun ht => ?_,
      fun h => absurd h.symm Bool.false_ne_true, ?_⟩
    · have hfound := (h.again ht).1
      rw [hdirty] at hfound
      cases hfound
    · have hsame := h'.clean hclean
      rw [Queued, hsame]
      exact h.queued
  | false =>
    have hsame := h.clean hdirty
    refine ⟨h.steady.trans h'.steady, h'.calm, fun ht => h'.again (h.again ht).2, fun hclean => ?_,
      ?_⟩
    · exact (h'.clean hclean).trans hsame
    · have hqueued := h'.queued
      rw [Queued, hsame] at hqueued
      exact hqueued

end Calms

/-- A visit of the watcher of a literal, unless that is a one-time literal that is watched by
reference. -/
theorem exists_calms_visitWatcher (he : e.IsContainerLiteral)
    (hlone : t.LoneWatch w a e listener byValue) (hyields : E.Yields t a e f inputs)
    (hlistener : E.Harmless listener)
    (hmode : e.oneTime = true → e.isConstant = false → byValue = true)
    (hsteady : t.Steady w u) :
    ∃ found v, runOn (E.visitWatcher w) u = some (.ok found, v) ∧
      Calms w a f inputs u found v := by
  obtain ⟨x, hx, hscope, hbyValue, hkind⟩ := (hlone.of_steady hsteady).watcher
  rw [visitWatcher, Compute.runOn_read_bind]
  cases hactive : u.isActive w with
  | false => exact ⟨{}, u, rfl, .refl u⟩
  | true =>
    rw [Tree.isActive, hx, Option.any_some] at hactive
    obtain ⟨change, v, y, hcheck, hchecked⟩ := exists_checked he hlone hyields hsteady hx
    have habreast (hcalm : u.AtRest w f inputs) : x.Abreast f inputs := by
      obtain ⟨x', hx', hcalm⟩ := hcalm
      cases hx.symm.trans hx'
      exact hcalm hactive
    rw [if_pos rfl, inspect, Compute.runOn_attempt_bind_of_run hcheck]
    cases change with
    | none =>
      refine ⟨_, v, rfl, hchecked.steady, fun h => absurd h Bool.false_ne_true,
        fun hcalm => ⟨rfl, y, hchecked.watcher, fun _ => ?_⟩, fun _ => ?_, .inl ?_⟩
      · exact (hchecked.abreast (habreast hcalm)).2
      · rw [hchecked.queues]
      · rw [hchecked.queues]
    | some change =>
      -- a constant is taken away; every other watcher has recorded what it will observe again
      have hsome : some change ≠ none := Option.some_ne_none change
      have hafter : e.isConstant = true ∨ y.Abreast f inputs := by
        rcases he.kind_cases hkind with ⟨hconstant, -⟩ | ⟨hconstant, honeTime, -⟩ |
          ⟨-, -, -, memo, hinputs⟩ | ⟨-, -, hvalue, -⟩
        · exact .inl hconstant
        · exact .inr (hchecked.recorded hsome (.inl (hbyValue.trans (hmode honeTime hconstant))))
        · exact .inr (hchecked.recorded hsome (.inr ⟨_, _, _, hinputs⟩))
        · exact .inr (hchecked.recorded hsome (.inl (hbyValue.trans hvalue)))
      have hmarked : v.Steady w { v with lastDirty := some w } :=
        .of_eq rfl rfl (.refl _) rfl rfl
      obtain ⟨r, v', hnotify, hsteady', hcalm, hqueued⟩ := exists_notify he
        (hlone.of_steady (hsteady.trans (hchecked.steady.trans hmarked))) hlistener
        hchecked.watcher hafter change
      have hreported := untouched_afterResult E r v'
      refine ⟨{ dirty := true }, E.afterResult r v', ?_,
        (hchecked.steady.trans hmarked).trans (hsteady'.trans hreported.steady), fun _ => ?_,
        fun hcalm => ?_, fun h => absurd h.symm Bool.false_ne_true, ?_⟩
      · have hcontained : runOn (E.contained (E.notify w change)) { v with lastDirty := some w } =
            some (.ok (), E.afterResult r v') := by
          rw [runOn_contained, hnotify]
          rfl
        change runOn (Compute.change _ >>= _) v = _
        rw [Compute.runOn_change_bind, Compute.runOn_bind_of_ok hcontained]
        rfl
      · obtain ⟨z, hz, hcalm⟩ := hcalm
        exact ⟨z, by rw [hreported.watcher?, hz], hcalm⟩
      · cases (hchecked.abreast (habreast hcalm)).1
      · have hqueues : v.queues = u.queues := hchecked.queues
        rw [Queued, hreported.queues, ← hqueues]
        exact hqueued

end Engine

end DataBinding
