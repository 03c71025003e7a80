import DataBinding.Proofs.LoneWatches
import DataBinding.Proofs.Rounds

/-!
# Watches of literals settle, but for one

A digest of a tree whose only watcher watches a container literal, with a listener that writes
nothing, settles unless the literal is watched one time and by reference
(`Engine.runOn_digest_of_loneWatch`).  Such a watch is not made through its inputs: whenever it is
checked it observes a container that was not there before, and takes it for a change.
-/

namespace DataBinding

open Compute (runOn)

variable {κ σ : Type} {E : Engine κ σ} {t u v : Tree κ σ} {w : WatcherId} {a s : ScopeId}
  {e : Expression} {listener : κ} {byValue : Bool} {f : Frozen} {inputs : List Value}

namespace Tree

/-- There are no more levels than scopes, also below a scope that there is not. -/
lemma Sound.fits_of_lt (ht : t.Sound) {d : ℕ} (hd : t.scopes.size < d) (s : ScopeId) :
    t.Fits d s := by
  by_cases hs : s < t.scopes.size
  · exact ht.fits hs (by omega)
  · cases d with
    | zero => omega
    | succ d =>
      refine .level fun c hc => ?_
      rw [scope_of_size_le (not_lt.1 hs)] at hc
      cases hc

lemma queues_settle (t : Tree κ σ) (w : WatcherId) : (t.settle w).queues = t.queues := by
  unfold settle
  split
  · split
    · exact queues_removeWatcher _ _
    · rfl
  · rfl

lemma steady_begun (w : WatcherId) (t : Tree κ σ) : t.Steady w t.begun := by
  obtain ⟨_, _, h⟩ := Engine.begun_cases t
  rw [h]
  exact .of_eq rfl rfl (.refl _) rfl rfl

end Tree

namespace Engine

/-! ## Queues with little in them -/

lemma runOn_drainWithin_of_empty {q : Queue} {n : ℕ} (hempty : t.queues.tasks q = []) :
    runOn (E.drainWithin q (n + 1)) t = some (.ok (), t) := by
  have hnone := (Tree.dequeue?_eq_none_iff t q).2 hempty
  rw [drainWithin, Compute.runOn_bind_of_ok (Compute.runOn_alter?_of_none hnone)]
  rfl

lemma runOn_drain_of_empty {q : Queue} (hlimit : 0 < E.limit) (hempty : t.queues.tasks q = []) :
    runOn (E.drain q) t = some (.ok (), t) := by
  obtain ⟨n, hn⟩ := Nat.exists_eq_add_of_le' hlimit
  rw [drain, hn]
  exact runOn_drainWithin_of_empty hempty

/-- At most one task waits for the end of the digest, and that is done without another. -/
lemma exists_drain_postDigest (hlimit : 1 < E.limit) (hempty : t.queues.postDigest = [])
    (hqueued : Queued w a t u) : ∃ v, runOn (E.drain .postDigest) u = some (.ok (), v) := by
  rcases hqueued with hsame | ⟨n, hmore⟩
  · exact ⟨u, runOn_drain_of_empty (by omega) (hsame.trans hempty)⟩
  · rw [hempty, List.nil_append] at hmore
    obtain ⟨limit, hlimit⟩ := Nat.exists_eq_add_of_le' hlimit
    let task : Task κ := ⟨n, a, .settle w⟩
    let v : Tree κ σ :=
      { u with queues := u.queues.setTasks .postDigest [] }.note (.started .postDigest n)
    have htask : u.dequeue? .postDigest = some (task, v) := by
      simp only [Tree.dequeue?, Queues.tasks, hmore]
      rfl
    have hperform : runOn (E.contained (E.perform a (.settle w))) v =
        some (.ok (), v.settle w) := by
      rw [runOn_contained]
      rfl
    refine ⟨v.settle w, ?_⟩
    rw [drain, hlimit, drainWithin, Compute.runOn_bind_of_ok (Compute.runOn_alter?_of_some htask)]
    change runOn (E.contained (E.perform a (.settle w)) >>= _) v = _
    rw [Compute.runOn_bind_of_ok hperform]
    refine runOn_drainWithin_of_empty ?_
    rw [Tree.queues_settle]
    rfl

/-! ## Passes -/

/-- What is known of a pass from what is known of its visits. -/
lemma exists_pass {J : Tree κ σ → Prop} {R : List WatcherId → Tree κ σ → Findings → Tree κ σ → Prop}
    (hR : Routine.Chained J R)
    (hchildren : ∀ {u}, J u → ∀ s, (u.scope s).children = (t.scope s).children)
    (hwatchers : ∀ b, t.Under s b → ∀ u, J u → ∃ f v,
      runOn (E.visitScope b) u = some (.ok f, v) ∧ R (t.scope b).watchers u f v)
    (hnote : ∀ {u step}, J u → J (u.note step)) (hfits : t.Fits E.limit s) (hu : J u) :
    ∃ found v, runOn (E.pass s) u = some (.ok found.dirty, v) ∧
      R (t.turnsWithin E.limit s) (u.note (.pass s)) found v := by
  obtain ⟨found, v, hrun, hfound⟩ := hR.exists_walk hchildren hwatchers hfits (hnote hu)
  refine ⟨found, v, ?_, hfound⟩
  rw [pass, Compute.runOn_change_bind, Compute.runOn_bind_of_ok hrun]
  rfl

/-- The visits of a scope whose watchers are all the same. -/
lemma exists_visitScope {J : Tree κ σ → Prop}
    {R : List WatcherId → Tree κ σ → Findings → Tree κ σ → Prop} (hR : Routine.Chained J R)
    (hvisit : ∀ x ∈ (u.scope s).watchers, ∀ u, J u → ∃ f v,
      runOn (E.visitWatcher x) u = some (.ok f, v) ∧ R [x] u f v) (hu : J u) :
    ∃ f v, runOn (E.visitScope s) u = some (.ok f, v) ∧ R (u.scope s).watchers u f v := by
  rw [visitScope, Compute.runOn_read_bind]
  have hrun := hR.exists_inOrder hvisit hu
  simpa using hrun

/-- A round without tasks is a pass. -/
lemma runOn_passes_of_pass {dirty : Bool} {n : ℕ} (hlimit : 0 < E.limit)
    (hempty : u.queues.async = []) (hpass : runOn (E.pass s) u = some (.ok dirty, v))
    (hafter : v.queues.async = []) :
    runOn (E.passes s n) u =
      if dirty then
        match n with
        | 0 => some (.ok false, v)
        | n + 1 => runOn (E.passes s n) v
      else some (.ok true, v) := by
  have hdrain : runOn (E.drain .async) u = some (.ok (), u) := runOn_drain_of_empty hlimit hempty
  rw [passes.eq_def, Compute.runOn_bind_of_ok hdrain,
    Compute.runOn_bind_of_ok hpass, Compute.runOn_read_bind, hafter]
  cases dirty with
  | true => cases n <;> rfl
  | false => rfl

/-! ## Literals that settle -/

section Calm

lemma chained_calms : Routine.Chained (t.Steady w) fun _ u found v =>
    t.Steady w u ∧ Calms w a f inputs u found v where
  none h := ⟨h, .refl _⟩
  ended h _ := h
  more h _ h' := ⟨h.1, h.2.trans h'.2⟩
  keeps h := h.1.trans h.2.steady

variable (he : e.IsContainerLiteral) (hlone : t.LoneWatch w a e listener byValue)
  (hyields : E.Yields t a e f inputs) (hlistener : E.Harmless listener) (hsound : t.Sound)
  (hmode : w ∈ t.turns s → e.oneTime = true → e.isConstant = false → byValue = true)
  (hlimit : t.scopes.size + 1 < E.limit) (hempty : t.queues.async = [])

include he hlone hyields hlistener hsound hmode hlimit

lemma exists_calms_pass (hsteady : t.Steady w u) :
    ∃ found v, runOn (E.pass s) u = some (.ok found.dirty, v) ∧ Calms w a f inputs u found v := by
  have hnote {u : Tree κ σ} {step : Step κ} (hu : t.Steady w u) : t.Steady w (u.note step) :=
    hu.trans (Tree.Untouched.note u step).steady
  have hfits : t.Fits E.limit s := hsound.fits_of_lt (by omega) s
  have hvisit (b : ScopeId) (hb : t.Under s b) (u : Tree κ σ) (hu : t.Steady w u) :
      ∃ found v, runOn (E.visitScope b) u = some (.ok found, v) ∧
        t.Steady w u ∧ Calms w a f inputs u found v := by
    refine exists_visitScope chained_calms (fun x hx u' hu' => ?_) hu
    have hmem := hu.watchers b hx
    obtain rfl := hlone.alone hmem
    have hturn := hsound.mem_turns.2 ⟨b, hb, hmem⟩
    obtain ⟨found, v, hrun, hcalms⟩ :=
      exists_calms_visitWatcher he hlone hyields hlistener (hmode hturn) hu'
    exact ⟨found, v, hrun, hu', hcalms⟩
  obtain ⟨found, v, hrun, -, hcalms⟩ := exists_pass chained_calms
    (fun hu => hu.children) hvisit hnote hfits hsteady
  exact ⟨found, v, hrun, (Tree.Untouched.note u _).steady.trans hcalms.steady, hcalms.calm,
    fun hcalm => hcalms.again hcalm, hcalms.clean, hcalms.queued⟩

include hempty

/-- Two rounds are enough: after the first there is nothing to report any more. -/
lemma exists_calms_passes (hsteady : t.Steady w u) (n : ℕ) :
    ∃ v, runOn (E.passes s (n + 1)) u = some (.ok true, v) ∧ Queued w a u v := by
  have hnone {u : Tree κ σ} (hu : t.Steady w u) : u.queues.async = [] := hu.async.trans hempty
  obtain ⟨found, v, hpass, hcalms⟩ :=
    exists_calms_pass he hlone hyields hlistener hsound hmode hlimit hsteady
  have hv := hsteady.trans hcalms.steady
  rw [runOn_passes_of_pass (by omega) (hnone hsteady) hpass (hnone hv)]
  cases hdirty : found.dirty with
  | false => exact ⟨v, rfl, hcalms.queued⟩
  | true =>
    obtain ⟨found', v', hpass', hcalms'⟩ :=
      exists_calms_pass he hlone hyields hlistener hsound hmode hlimit hv
    have hclean := (hcalms'.again (hcalms.calm hdirty)).1
    refine ⟨v', ?_, (hcalms.trans hcalms').queued⟩
    rw [if_pos rfl]
    dsimp only
    rw [runOn_passes_of_pass (by omega) (hnone hv) hpass' (hnone (hv.trans hcalms'.steady)), hclean]
    rfl

/-- The digest settles. -/
lemma exists_digest_ok (hidle : t.phase = none) (happly : t.queues.apply = [])
    (hpostDigest : t.queues.postDigest = []) (httl : 0 < t.config.digestTtl) :
    ∃ u, runOn (E.digest s) t = some (.ok (), u) := by
  obtain ⟨n, hn⟩ := Nat.exists_eq_add_of_le' httl
  have hdrain : runOn (E.drain .apply) t.begun = some (.ok (), t.begun) := by
    refine runOn_drain_of_empty (by omega) ?_
    rw [queues_begun]
    exact happly
  obtain ⟨v, hpasses, hqueued⟩ := exists_calms_passes he hlone hyields hlistener hsound hmode
    hlimit hempty (t.steady_begun w) n
  rw [Queued, queues_begun] at hqueued
  obtain ⟨u, hend⟩ : ∃ u, runOn (E.drain .postDigest) (v.leave .digest) = some (.ok (), u) :=
    exists_drain_postDigest (by omega) hpostDigest hqueued
  refine ⟨u, ?_⟩
  have hloop : runOn (E.loop s) t = some (.ok (true, t.begun.config.digestTtl), v) := by
    refine runOn_loop hidle hdrain ?_
    rw [config_begun, hn]
    exact hpasses
  rw [digest_eq_loop, Compute.runOn_bind_of_ok hloop]
  change runOn (Compute.change _ >>= _) v = _
  rw [Compute.runOn_change_bind, if_pos rfl]
  exact hend

end Calm

/-! ## The literal that does not -/

end Engine

namespace Tree

/-- The watcher `w` is there still, and what it recorded last is a value of the heap. -/
structure Restless (w : WatcherId) (t u : Tree κ σ) : Prop where
  steady : t.Steady w u
  scopes : u.scopes = t.scopes
  watcher : ∃ x, u.watcher? w = some x ∧ x.active = true ∧
    ∀ f, x.last = some f → ∃ v, f = .leaf v ∧ u.store.heap.Has v

namespace Restless

lemma step (h : Restless w t u) (hsteady : u.Steady w v) (hscopes : v.scopes = u.scopes)
    (hwatcher : ∀ x, u.watcher? w = some x →
      ∃ y, v.watcher? w = some y ∧ y.active = x.active ∧ y.last = x.last) : Restless w t v := by
  obtain ⟨x, hx, hactive, hlast⟩ := h.watcher
  obtain ⟨y, hy, hsame, hrecord⟩ := hwatcher x hx
  refine ⟨h.steady.trans hsteady, hscopes.trans h.scopes, y, hy, hsame.trans hactive,
    fun f hf => ?_⟩
  obtain ⟨value, rfl, hhas⟩ := hlast f (hrecord ▸ hf)
  exact ⟨value, rfl, hsteady.keeps.has hhas⟩

lemma of_untouched (h : Restless w t u) (huv : u.Untouched v) : Restless w t v :=
  h.step huv.steady huv.scopes fun x hx => ⟨x, by rw [huv.watcher?, hx], rfl, rfl⟩

end Restless

end Tree

lemma Heap.Has.of_same {h : Heap} {v w : Value} (hw : h.Has w) (hsame : v.same w = true) :
    h.Has v := by
  cases v with
  | array | object | function =>
    cases w <;> simp_all [Value.same, Value.strictEq]
  | _ => trivial

namespace Engine

section Restless

variable (he : e.IsContainerLiteral) (honeTime : e.oneTime = true)
  (hconstant : e.isConstant = false) (hlone : t.LoneWatch w a e listener false)
  (hyields : E.Yields t a e f inputs) (hlistener : E.Harmless listener)

include he honeTime hconstant hlone

lemma kind_of_restless (hu : t.Restless w u) {x : Watcher κ} (hx : u.watcher? w = some x) :
    x.scope = a ∧ x.byValue = false ∧ ∃ reported, x.kind = .oneTime e listener reported := by
  obtain ⟨x', hx', hscope, hbyValue, hkind⟩ := (hlone.of_steady hu.steady).watcher
  cases hx.symm.trans hx'
  refine ⟨hscope, hbyValue, ?_⟩
  rcases he.kind_cases hkind with ⟨h, -⟩ | ⟨-, -, h⟩ | ⟨-, h, -⟩ | ⟨-, h, -⟩
  · exact absurd (h.symm.trans hconstant) (by simp)
  · exact h
  · exact absurd (h.symm.trans honeTime) (by simp)
  · exact absurd (h.symm.trans honeTime) (by simp)

include hyields

/-- It observes a fresh container, and records that. -/
lemma exists_restless_check (hu : t.Restless w u) :
    ∃ change v, runOn (E.check w) u = some (.ok (some change), v) ∧ t.Restless w v := by
  obtain ⟨x, hx, hactive, hlast⟩ := hu.watcher
  obtain ⟨hscope, hbyValue, reported, hkind⟩ := kind_of_restless he honeTime hconstant hlone hu hx
  obtain ⟨new, store, hrun, hkeeps, -, -, hhas, hfresh⟩ :=
    hyields.value (u := u.note (.checked w)) (hu.steady.data a) hu.steady.keeps
  let observed : Tree κ σ := { u.note (.checked w) with store }
  have hobserved : u.Untouched observed :=
    (Tree.Untouched.note u _).trans (.withStore hkeeps)
  have hobserve : runOn (E.observe x.scope w x.kind) (u.note (.checked w)) =
      some (.ok new, observed) := by
    rw [hkind, hscope]
    exact hrun
  have hdiffers : x.last.any (observed.store.heap.agrees · new) = false := by
    cases hrecord : x.last with
    | none => rfl
    | some f =>
      obtain ⟨old, rfl, hold⟩ := hlast f hrecord
      rw [Option.any_some, Heap.agrees, Bool.eq_false_iff]
      exact fun hsame => hfresh (hold.of_same hsame)
  have hfrozen : observed.store.heap.recorded? x.byValue new = some (.leaf new) := by
    rw [hbyValue]
    rfl
  obtain ⟨change, store', -, hkeeps', hrecord⟩ :=
    Tree.record_of_differs (t := observed) hx hdiffers hfrozen
  let recorded := observed.modifyWatcher w ({ · with last := some (.leaf new) })
  have hset : observed.Steady w recorded := .modifyWatcher fun _ _ => ⟨rfl, rfl, rfl⟩
  have hstored : recorded.Untouched { recorded with store := store' } := .withStore hkeeps'
  refine ⟨change, { recorded with store := store' }, ?_,
    hu.steady.trans (hobserved.steady.trans (hset.trans hstored.steady)), hu.scopes,
    { x with last := some (.leaf new) }, ?_, hactive, fun f hf => ?_⟩
  · rw [runOn_check_of_observe hx hobserve, hrecord]
    rfl
  · exact (Tree.watcher?_modifyWatcher_self (t := observed) _).trans (congrArg (Option.map _) hx)
  · cases hf
    exact ⟨new, rfl, hkeeps'.has hhas⟩

omit hyields in
include hlistener in
lemma exists_restless_notify (hu : t.Restless w u) (change : Change) :
    ∃ r v, runOn (E.notify w change) u = some (r, v) ∧ t.Restless w v := by
  obtain ⟨x, hx, -⟩ := hu.watcher
  obtain ⟨-, -, reported, hkind⟩ := kind_of_restless he honeTime hconstant hlone hu hx
  let kind : WatchKind κ := .oneTime e listener change.new
  have hset : t.Restless w (u.setKind w kind) := by
    refine hu.step (.setKind hx (by rw [hkind]; rfl)) rfl fun y hy =>
      ⟨{ y with kind }, ?_, rfl, rfl⟩
    exact (Tree.watcher?_modifyWatcher_self _).trans (congrArg (Option.map _) hy)
  obtain ⟨r, v, hrun, hv⟩ := exists_tell hlistener x.scope change (u.setKind w kind)
  have htold := hset.of_untouched hv
  rw [notify, Compute.runOn_read_bind, hx]
  dsimp only
  rw [hkind, react, reactOneTime, Compute.runOn_change_bind,
    Compute.runOn_attempt_bind_of_run hrun, Compute.runOn_read_bind]
  cases v.store.heap.settled e.isLiteral change.new with
  | false => exact ⟨r, v, rfl, htold⟩
  | true =>
    refine ⟨r, v.enqueue .postDigest x.scope (.settle w), rfl, ?_⟩
    exact htold.step (.of_eq rfl rfl (.refl _) rfl rfl) rfl fun y hy => ⟨y, hy, rfl, rfl⟩

include hlistener

/-- Whenever the watcher has its turn it is found dirty. -/
lemma exists_restless_visit (hu : t.Restless w u) :
    ∃ v, runOn (E.visitWatcher w) u = some (.ok { dirty := true }, v) ∧ t.Restless w v := by
  obtain ⟨x, hx, hactive, -⟩ := hu.watcher
  obtain ⟨change, v, hcheck, hv⟩ := exists_restless_check he honeTime hconstant hlone hyields hu
  have hmarked : t.Restless w { v with lastDirty := some w } :=
    hv.step (.of_eq rfl rfl (.refl _) rfl rfl) rfl fun y hy => ⟨y, hy, rfl, rfl⟩
  obtain ⟨r, v', hnotify, hv'⟩ :=
    exists_restless_notify he honeTime hconstant hlone hlistener hmarked change
  refine ⟨E.afterResult r v', ?_, hv'.of_untouched (untouched_afterResult E r v')⟩
  have hvisited : u.isActive w = true := by rw [Tree.isActive, hx, Option.any_some, hactive]
  have hcontained : runOn (E.contained (E.notify w change)) { v with lastDirty := some w } =
      some (.ok (), E.afterResult r v') := by
    rw [runOn_contained, hnotify]
    rfl
  rw [visitWatcher, Compute.runOn_read_bind, hvisited, if_pos rfl, inspect,
    Compute.runOn_attempt_bind_of_run hcheck]
  change runOn (Compute.change _ >>= _) v = _
  rw [Compute.runOn_change_bind, Compute.runOn_bind_of_ok hcontained]
  rfl

omit he honeTime hconstant hlone hyields hlistener in
lemma chained_restless : Routine.Chained (t.Restless w) fun l _ found v =>
    t.Restless w v ∧ found.ended = false ∧ (w ∈ l → found.dirty = true) where
  none h := ⟨h, rfl, nofun⟩
  ended h hended := absurd (hended.symm.trans h.2.1) (by simp)
  more h _ h' := by
    refine ⟨h'.1, h'.2.1, fun hmem => ?_⟩
    rcases List.mem_append.1 hmem with hmem | hmem
    · rw [h.2.2 hmem, Bool.true_or]
    · rw [h'.2.2 hmem, Bool.or_true]
  keeps h := h.1

variable (hsound : t.Sound) (hlimit : t.scopes.size + 1 < E.limit)
  (hempty : t.queues.async = []) (hturn : w ∈ t.turns s)

include hsound hlimit hturn

lemma exists_restless_pass (hu : t.Restless w u) :
    ∃ v, runOn (E.pass s) u = some (.ok true, v) ∧ t.Restless w v := by
  have hfits : t.Fits E.limit s := hsound.fits_of_lt (by omega) s
  have hvisit (b : ScopeId) (_ : t.Under s b) (u : Tree κ σ) (hu : t.Restless w u) :
      ∃ found v, runOn (E.visitScope b) u = some (.ok found, v) ∧
        t.Restless w v ∧ found.ended = false ∧
          (w ∈ (t.scope b).watchers → found.dirty = true) := by
    have hsame : (t.scope b).watchers = (u.scope b).watchers := by
      rw [Tree.scope, ← hu.scopes, Tree.scope]
    rw [hsame]
    refine exists_visitScope chained_restless (fun x hx u' hu' => ?_) hu
    obtain rfl := hlone.alone (hu.steady.watchers b hx)
    obtain ⟨v, hrun, hv⟩ :=
      exists_restless_visit he honeTime hconstant hlone hyields hlistener hu'
    exact ⟨_, v, hrun, hv, rfl, fun _ => rfl⟩
  obtain ⟨found, v, hrun, hv, -, hdirty⟩ := exists_pass chained_restless
    (fun hu => hu.steady.children) hvisit
    (fun hu => hu.of_untouched (.note _ _)) hfits hu
  rw [hfits.turnsWithin_eq hsound] at hdirty
  exact ⟨v, by rw [hrun, hdirty hturn], hv⟩

include hempty

/-- No round is the last. -/
lemma exists_restless_passes (hu : t.Restless w u) (n : ℕ) :
    ∃ v, runOn (E.passes s n) u = some (.ok false, v) ∧ t.Restless w v := by
  have hnone {u : Tree κ σ} (hu : t.Restless w u) : u.queues.async = [] :=
    hu.steady.async.trans hempty
  induction n generalizing u with
  | zero =>
    obtain ⟨v, hpass, hv⟩ := exists_restless_pass he honeTime hconstant hlone hyields hlistener
      hsound hlimit hturn hu
    refine ⟨v, ?_, hv⟩
    rw [runOn_passes_of_pass (by omega) (hnone hu) hpass (hnone hv)]
    rfl
  | succ n ih =>
    obtain ⟨v, hpass, hv⟩ := exists_restless_pass he honeTime hconstant hlone hyields hlistener
      hsound hlimit hturn hu
    obtain ⟨v', hpasses, hv'⟩ := ih hv
    refine ⟨v', ?_, hv'⟩
    rw [runOn_passes_of_pass (by omega) (hnone hu) hpass (hnone hv)]
    exact hpasses

/-- The digest gives up. -/
lemma exists_digest_error (hidle : t.phase = none) (happly : t.queues.apply = [])
    (hrecorded : ∀ {x f}, t.watcher? w = some x → x.last = some f →
      ∃ v, f = .leaf v ∧ t.store.heap.Has v) :
    ∃ u, runOn (E.digest s) t = some (.error (.divergence t.config.digestTtl), u) := by
  have hdrain : runOn (E.drain .apply) t.begun = some (.ok (), t.begun) := by
    refine runOn_drain_of_empty (by omega) ?_
    rw [queues_begun]
    exact happly
  have hactive : t.isActive w = true := hsound.isActive_of_mem_turnsWithin hturn
  have hbegun : t.Restless w t.begun := by
    obtain ⟨x, hx, -⟩ := hlone.watcher
    rw [Tree.isActive, hx, Option.any_some] at hactive
    refine ⟨t.steady_begun w, ?_, x, ?_, hactive, fun f hf => ?_⟩
    all_goals
      obtain ⟨_, _, h⟩ := begun_cases t
      rw [h]
    · rfl
    · exact hx
    · exact hrecorded hx hf
  obtain ⟨v, hpasses, -⟩ := exists_restless_passes he honeTime hconstant hlone hyields hlistener
    hsound hlimit hempty hturn hbegun t.config.digestTtl
  refine ⟨v.leave .digest, ?_⟩
  have hloop : runOn (E.loop s) t = some (.ok (false, t.begun.config.digestTtl), v) := by
    refine runOn_loop hidle hdrain ?_
    rw [config_begun]
    exact hpasses
  rw [digest_eq_loop, Compute.runOn_bind_of_ok hloop, config_begun]
  rfl

end Restless

/-- A digest of a tree whose only watcher watches a container literal settles, unless the literal is
one-time, not constant and watched by reference, and the watcher has a turn in the digest. -/
theorem runOn_digest_of_loneWatch (hidle : t.phase = none) (hqueues : ∀ q, t.queues.tasks q = [])
    (hsound : t.Sound) (hlimit : t.scopes.size + 1 < E.limit) (httl : 0 < t.config.digestTtl)
    (he : e.IsContainerLiteral) (hlone : t.LoneWatch w a e listener byValue)
    (hrecorded : byValue = false → ∀ {x f}, t.watcher? w = some x → x.last = some f →
      ∃ v, f = .leaf v ∧ t.store.heap.Has v)
    (hlistener : E.Harmless listener) (hdata : t.store.heap.Regular (.object (t.data a)))
    {value : Value} (hvalue : runOn (E.evaluate a e none) t = some (.ok value, u)) (s : ScopeId) :
    ∃ u, runOn (E.digest s) t = some
      (if e.oneTime = true ∧ e.isConstant = false ∧ byValue = false ∧ w ∈ t.turns s then
        .error (.divergence t.config.digestTtl) else .ok (), u) := by
  obtain ⟨f, inputs, hyields⟩ := exists_yields he hdata hvalue
  split_ifs with hmode
  · obtain ⟨honeTime, hconstant, rfl, hturn⟩ := hmode
    exact exists_digest_error he honeTime hconstant hlone hyields hlistener hsound hlimit
      (hqueues .async) hturn hidle (hqueues .apply) (hrecorded rfl)
  · refine exists_digest_ok he hlone hyields hlistener hsound (fun hturn honeTime hconstant => ?_)
      hlimit (hqueues .async) hidle (hqueues .apply) (hqueues .postDigest) httl
    by_contra hbyValue
    exact hmode ⟨honeTime, hconstant, by simpa using hbyValue, hturn⟩

end Engine

/-! ## A host that watches a literal -/

/-- The only procedure of a host whose listener does nothing. -/
inductive Onlooker
  | ignore

/-- A host whose listener does nothing. -/
def onlooker : Host Onlooker Unit where
  library := ⟨fun _ _ _ => .endless, fun _ _ => .endless⟩
  report := fun _ host => host
  procedure | .ignore, _ => return .undefined

/-- Gives the root a property, and watches an expression in it. -/
def onlookerSetup (source : String) (byValue : Bool) : Program Onlooker Unit Unit := do
  let data ← Program.look fun t => t.data rootId
  Program.compute (Store.changing (·.setOwn data "a" (.number 1)))
  discard <| Program.request (.watchExpression rootId source .ignore byValue)

lemma harmless_onlooker (limit : ℕ) : (onlooker.engine (limit + 1)).Harmless .ignore :=
  fun _ _ t => ⟨.ok .undefined, t, rfl, .refl t⟩

/-- The expression that `::[a]` stands for. -/
def onlookerLiteral : Expression where
  source := "[a]"
  body := [.array [.place (.name "a")]]
  filters := []
  oneTime := true

lemma onlookerLiteral_isContainerLiteral : onlookerLiteral.IsContainerLiteral where
  statement := ⟨_, rfl, .array (by simpa using .path (.name "a")), .inl ⟨_, rfl⟩⟩
  filters := rfl

/-- The heap in which the root has its property. -/
def onlookerHeap : Heap := ⟨#[], #[⟨⟨[("a", .number 1)]⟩, none⟩], #[]⟩

lemma regular_onlookerHeap : onlookerHeap.Regular (.object 0) := by
  refine .of_atoms (by simp [Heap.Has, onlookerHeap]) rfl ?_ fun w hw => ?_
  · exact List.nodup_singleton _
  · obtain rfl := List.mem_singleton.1 hw
    trivial

lemma onlooker_run (byValue : Bool) : ∃ t, onlooker.run 9 (onlookerSetup "::[a]" byValue)
      (.plant ⟨.empty, ()⟩ ⟨.empty, .empty⟩ {} false) = some (.ok (), t) ∧
    t.phase = none ∧ (∀ q, t.queues.tasks q = []) ∧ t.scopes.size = 1 ∧ t.config.digestTtl = 10 ∧
    t.LoneWatch 0 rootId onlookerLiteral .ignore byValue ∧
    t.store.heap.Regular (.object (t.data rootId)) ∧
    ∃ v u, runOn ((onlooker.engine 9).evaluate rootId onlookerLiteral none) t =
      some (.ok v, u) := by
  generalize hx : onlooker.run 9 (onlookerSetup _ _) _ = x
  cbv at hx
  subst hx
  refine ⟨_, rfl, rfl, fun q => by cases q <;> rfl, rfl, rfl, ⟨fun {s v} hv => ?_, ?_⟩,
    regular_onlookerHeap, ?_⟩
  · cases s with
    | zero => simpa [Tree.scope] using hv
    | succ s => simp [Tree.scope] at hv
  · exact ⟨_, rfl, rfl, rfl, rfl⟩
  · generalize hy : runOn _ _ = y
    cbv at hy
    subst hy
    exact ⟨_, _, rfl⟩

/-- Watched by value the one-time literal `::[a]` settles. -/
theorem onlooker_settles_by_value : ∃ t u, onlooker.run 9 (onlookerSetup "::[a]" true)
      (.plant ⟨.empty, ()⟩ ⟨.empty, .empty⟩ {} false) = some (.ok (), t) ∧
    runOn ((onlooker.engine 9).digest rootId) t = some (.ok (), u) := by
  obtain ⟨t, hrun, hidle, hqueues, hsize, httl, hlone, hdata, value, v, hvalue⟩ := onlooker_run true
  obtain ⟨u, hdigest⟩ := Engine.runOn_digest_of_loneWatch hidle hqueues
    (Host.sound_of_run hrun (Tree.sound_plant ..)) (by rw [hsize]; decide) (by rw [httl]; decide)
    onlookerLiteral_isContainerLiteral hlone nofun (harmless_onlooker 8) hdata hvalue rootId
  exact ⟨t, u, hrun, by simpa using hdigest⟩

set_option maxRecDepth 4000 in
/-- Watched by reference it does not: no pass finds the watcher clean. -/
theorem onlooker_diverges_by_reference : ∃ t, onlooker.run 9 (onlookerSetup "::[a]" false)
      (.plant ⟨.empty, ()⟩ ⟨.empty, .empty⟩ {} false) = some (.ok (), t) ∧
    onlookerLiteral.IsContainerLiteral ∧ t.LoneWatch 0 rootId onlookerLiteral .ignore false ∧
    (onlooker.engine 9).Harmless .ignore ∧ t.store.heap.Regular (.object (t.data rootId)) ∧
    (∃ v u, runOn ((onlooker.engine 9).evaluate rootId onlookerLiteral none) t = some (.ok v, u)) ∧
    ∃ u, runOn ((onlooker.engine 9).digest rootId) t = some (.error (.divergence 10), u) := by
  obtain ⟨t, hrun, -, -, -, -, hlone, hdata, hvalue⟩ := onlooker_run false
  refine ⟨t, hrun, onlookerLiteral_isContainerLiteral, hlone, harmless_onlooker 8, hdata, hvalue,
    ?_⟩
  generalize hx : onlooker.run 9 (onlookerSetup _ _) _ = x at hrun
  cbv at hx
  subst hx
  cases hrun
  generalize hy : runOn _ _ = y
  cbv at hy
  subst hy
  exact ⟨_, rfl⟩

end DataBinding
