import DataBinding.Proofs.Convergence
import DataBinding.Proofs.Cycles
import DataBinding.Proofs.Endings

/-!
# How a digest can fail to end

A digest counts its passes and gives up when the allowed ones are spent.  Nothing else is counted.
So there are three ways in which the loop of a digest can fail to end (`Host.loop_ends_iff`).

It may hang (`Host.Hangs`): a task, the observation of a watcher or the reaction to a change has no
end, or a value that a watcher is to record by contents contains itself.  It may be overworked
(`Host.Overworks`): a queue that it drains never runs empty, because the tasks queue others.  And it
may go down for ever (`Host.Deepens`): a pass comes any number of levels down, because the scopes it
comes to are given children.

The procedures of a host can all come to their ends and a digest may still have none, because a task
queues itself again whenever it runs (`again_has_no_end`).
-/

namespace DataBinding

open Compute (runOn runOn_bind_cases)

variable {κ σ α β : Type}

/-- There is no record of a value just if it differs from the last record, the watcher compares by
contents and the value contains itself. -/
lemma Tree.record_eq_none_iff {t : Tree κ σ} {w : WatcherId} {new : Value} :
    t.record w new = none ↔ ∃ watcher, t.watcher? w = some watcher ∧
      watcher.last.any (t.store.heap.agrees · new) = false ∧ watcher.byValue = true ∧
      t.store.heap.Cyclic new := by
  unfold Tree.record
  cases hw : t.watcher? w with
  | none => simp
  | some watcher =>
    cases hagrees : watcher.last.any (t.store.heap.agrees · new) with
    | true => simp [hagrees]
    | false => cases hv : watcher.byValue <;> simp [hagrees, hv, Heap.recorded?,
        Heap.freeze?_eq_none_iff]

namespace Host

variable (H : Host κ σ) {m : Engine κ σ → Routine κ σ α} {f : Engine κ σ → α → Routine κ σ β}
  {s : ScopeId} {t u v z : Tree κ σ} {w : WatcherId} {n : ℕ} {q : Queue}

/-! ## Where a digest comes to -/

/-- The rounds of a digest go on from one tree, with so many more allowed, to another one, with
fewer. -/
inductive GoesOn (s : ScopeId) : ℕ → Tree κ σ → ℕ → Tree κ σ → Prop
  | stay (n : ℕ) (t : Tree κ σ) : GoesOn s n t n t
  | round {n m : ℕ} {t u v z : Tree κ σ} {dirty : Bool}
      (hdrain : H.Ends (·.drain .async) t (.ok ()) u) (hpass : H.Ends (·.pass s) u (.ok dirty) v)
      (hunsettled : dirty = true ∨ v.queues.async ≠ []) (hrest : GoesOn s n v m z) :
    GoesOn s (n + 1) t m z

/-- The digest comes to a round. -/
def RoundAt (s : ScopeId) (t u : Tree κ σ) : Prop :=
  ∃ v n, H.Ends (·.opening) t (.ok ()) v ∧ H.GoesOn s v.config.digestTtl v n u

/-- The digest comes to drain a queue. -/
inductive DrainAt (s : ScopeId) (t : Tree κ σ) : Queue → Tree κ σ → Prop
  | opening : DrainAt s t .apply t.begun
  | round {u : Tree κ σ} (hround : H.RoundAt s t u) : DrainAt s t .async u

/-- The digest comes to a pass. -/
def PassAt (s : ScopeId) (t u : Tree κ σ) : Prop :=
  ∃ v, H.RoundAt s t v ∧ H.Ends (·.drain .async) v (.ok ()) u

/-- The digest comes to the turn of a watcher that is active. -/
inductive TurnAt (s : ScopeId) (t : Tree κ σ) (w : WatcherId) (z : Tree κ σ) : Prop
  | intro {u v : Tree κ σ} {n : ℕ} {b : ScopeId} {before after : List WatcherId} {f : Findings}
      (hpass : H.PassAt s t u)
      (hscope : H.Descends (·.visitScope) n s (u.note (.pass s)) b v)
      (hwatchers : (v.scope b).watchers = before ++ w :: after)
      (hbefore : H.Ends (fun E => Routine.inOrder E.visitWatcher before) v (.ok f) z)
      (hf : f.ended = false) (hactive : z.isActive w = true)

/-! ## Ways to have no end -/

/-- The digest comes to a task, to the observation of a watcher or to the reaction to a change that
has no end, or to a value that contains itself and that the watcher is to record by contents. -/
inductive Hangs (s : ScopeId) (t : Tree κ σ) : Prop
  | task {q : Queue} {n : ℕ} {u v v' : Tree κ σ} {task : Task κ} (hdrain : H.DrainAt s t q u)
      (hworks : H.Works q n u v) (htask : v.dequeue? q = some (task, v'))
      (hendless : H.Endless (·.perform task.scope task.work) v')
  | observation {w : WatcherId} {u : Tree κ σ} {watcher : Watcher κ} (hturn : H.TurnAt s t w u)
      (hwatcher : u.watcher? w = some watcher)
      (hendless : H.Endless (·.observe watcher.scope w watcher.kind) (u.note (.checked w)))
  | record {w : WatcherId} {u v : Tree κ σ} {watcher watcher' : Watcher κ} {new : Value}
      (hturn : H.TurnAt s t w u) (hwatcher : u.watcher? w = some watcher)
      (hobserve : H.Ends (·.observe watcher.scope w watcher.kind) (u.note (.checked w)) (.ok new) v)
      (hwatcher' : v.watcher? w = some watcher')
      (hdiffers : watcher'.last.any (v.store.heap.agrees · new) = false)
      (hbyValue : watcher'.byValue = true) (hcyclic : v.store.heap.Cyclic new)
  | reaction {w : WatcherId} {u v : Tree κ σ} {change : Change} (hturn : H.TurnAt s t w u)
      (hcheck : H.Ends (·.check w) u (.ok (some change)) v)
      (hendless : H.Endless (·.notify w change) { v with lastDirty := some w })

/-- The digest comes to a queue of which it runs any number of tasks. -/
def Overworks (s : ScopeId) (t : Tree κ σ) : Prop :=
  ∃ q u, H.DrainAt s t q u ∧ ∀ n, ∃ v, H.Works q n u v

/-- The digest comes to a pass that comes any number of levels down. -/
def Deepens (s : ScopeId) (t : Tree κ σ) : Prop :=
  ∃ u, H.PassAt s t u ∧ ∀ n, ∃ b v, H.Descends (·.visitScope) n s (u.note (.pass s)) b v

variable {H}

/-! ## Visits -/

lemma rising_observe (s : ScopeId) (w : WatcherId) (kind : WatchKind κ) :
    H.Rising (·.observe s w kind) :=
  rising fun hE => Engine.follows_observe hE s w kind

lemma rising_check (w : WatcherId) : H.Rising (·.check w) :=
  rising fun hE => Engine.follows_check hE w

lemma rising_notify (w : WatcherId) (change : Change) : H.Rising (·.notify w change) :=
  rising fun hE => (Engine.shadows_notify hE w change).follows id

lemma rising_visitWatcher (w : WatcherId) : H.Rising (·.visitWatcher w) :=
  rising fun hE => Engine.follows_visitWatcher hE w

lemma rising_visitScope (a : ScopeId) : H.Rising (·.visitScope a) :=
  rising fun hE => Engine.follows_visitScope hE a

lemma rising_pass (s : ScopeId) : H.Rising (·.pass s) :=
  rising fun hE => Engine.follows_pass hE s

lemma rising_passes (s : ScopeId) (n : ℕ) : H.Rising (·.passes s n) :=
  rising fun hE => Engine.follows_passes hE s n

/-- A check has no end just if the observation has none or there is no record of its value. -/
lemma endless_check_iff : H.Endless (·.check w) t ↔ ∃ watcher, t.watcher? w = some watcher ∧
    (H.Endless (·.observe watcher.scope w watcher.kind) (t.note (.checked w)) ∨
      ∃ new v, H.Ends (·.observe watcher.scope w watcher.kind) (t.note (.checked w)) (.ok new) v ∧
        v.record w new = none) := by
  refine endless_change_bind_iff.trans (endless_read_bind_iff.trans ?_)
  have hnote : (t.note (.checked w)).watcher? w = t.watcher? w := rfl
  simp only [hnote]
  cases hw : t.watcher? w with
  | none =>
    refine iff_of_false (fun h => h.not_ends ⟨0, rfl⟩) ?_
    rintro ⟨watcher, hw', -⟩
    cases hw'
  | some watcher =>
    have hiff := endless_bind_iff (H := H) (t := t.note (.checked w))
      (f := fun _ new => Compute.alterEndless (·.record w new))
      (rising_observe watcher.scope w watcher.kind) fun new => rising_const _
    refine hiff.trans ⟨?_, ?_⟩
    · rintro (h | ⟨new, v, hends, h⟩)
      · exact ⟨watcher, rfl, .inl h⟩
      · exact ⟨watcher, rfl, .inr ⟨new, v, hends, endless_alterEndless_iff.1 h⟩⟩
    · rintro ⟨watcher', hw', h⟩
      cases hw'
      refine h.imp_right ?_
      rintro ⟨new, v, hends, h⟩
      exact ⟨new, v, hends, endless_alterEndless_iff.2 h⟩

/-- A visit has no end just if the check or the reaction has none. -/
lemma endless_visitWatcher_iff : H.Endless (·.visitWatcher w) t ↔ t.isActive w = true ∧
    (H.Endless (·.check w) t ∨ ∃ change v, H.Ends (·.check w) t (.ok (some change)) v ∧
      H.Endless (·.notify w change) { v with lastDirty := some w }) := by
  constructor
  · intro h
    replace h := endless_read_bind_iff.1 h
    cases hactive : t.isActive w with
    | false =>
      rw [hactive] at h
      exact absurd ⟨0, rfl⟩ h.not_ends
    | true =>
      rw [hactive] at h
      refine ⟨rfl, ?_⟩
      rcases ends_or_endless (H := H) (·.check w) t with ⟨result, v, hcheck⟩ | hcheck
      · obtain ⟨limit, hrun⟩ := id hcheck
        have hinspect : ∀ limit', limit ≤ limit' → runOn ((H.engine limit').check w) t =
            some (result, v) := fun limit' hle => (rising_check w).runOn_of_le hle hrun
        rcases result with e | _ | change
        · have hnone := h limit
          cases (Compute.runOn_attempt_bind_of_run hrun).symm.trans hnone
        · have hnone := h limit
          cases (Compute.runOn_attempt_bind_of_run hrun).symm.trans hnone
        · refine .inr ⟨change, v, hcheck, endless_contained_iff.1 fun limit' => ?_⟩
          have hnone := h (max limit limit')
          replace hnone := (Compute.runOn_attempt_bind_of_run
            (hinspect _ (Nat.le_max_left limit limit'))).symm.trans hnone
          rw [Compute.runOn_change_bind] at hnone
          by_contra hsome
          obtain ⟨⟨r, z⟩, hnotify⟩ := Option.ne_none_iff_exists'.1 hsome
          have hends := (rising_contained (rising_notify w change)).runOn_of_le
            (Nat.le_max_right limit limit') hnotify
          obtain ⟨rfl, -⟩ := Engine.runOn_contained_cases hends
          rw [Compute.runOn_bind_of_ok hends] at hnone
          cases hnone
      · exact .inl hcheck
  · rintro ⟨hactive, h⟩ limit
    by_contra hsome
    obtain ⟨⟨r, z⟩, hrun⟩ := Option.ne_none_iff_exists'.1 hsome
    rcases Engine.visitWatcher_cases hrun with ⟨hinactive, -⟩ | ⟨-, result, v, hcheck, hrest⟩
    · rw [hactive] at hinactive
      cases hinactive
    rcases h with h | ⟨change, v', hends, h⟩
    · exact h.not_ends ⟨limit, hcheck⟩
    · obtain ⟨rfl, rfl⟩ := Ends.unique (rising_check w) hends ⟨limit, hcheck⟩
      rcases hrest with ⟨e, he, -⟩ | ⟨hnone, -⟩ | ⟨change', hchange, -, hnotify⟩
      · cases he
      · cases hnone
      · cases hchange
        exact (endless_contained_iff.2 h).not_ends ⟨limit, hnotify⟩

lemma endless_visitScope_iff {a : ScopeId} : H.Endless (·.visitScope a) t ↔
    ∃ before w after f v, (t.scope a).watchers = before ++ w :: after ∧
      H.Ends (fun E => Routine.inOrder E.visitWatcher before) t (.ok f) v ∧ f.ended = false ∧
      H.Endless (·.visitWatcher w) v :=
  endless_read_bind_iff.trans (endless_inOrder_iff rising_visitWatcher)

/-! ## Passes and rounds -/

/-- A pass has no end just if a visit has none, or if it comes any number of levels down. -/
lemma endless_pass_iff : H.Endless (·.pass s) t ↔
    (∃ n b u, H.Descends (·.visitScope) n s (t.note (.pass s)) b u ∧ H.Endless (·.visitScope b) u) ∨
      ∀ n, ∃ b u, H.Descends (·.visitScope) n s (t.note (.pass s)) b u := by
  refine endless_change_bind_iff.trans ?_
  refine (endless_map_iff (rising_walk_limit rising_visitScope s) Findings.dirty).trans ?_
  exact endless_walk_iff rising_visitScope

/-- A round and what is next have no end just if the drain has none, or the pass, or what is next
where the round has left something to do. -/
lemma endless_roundWith_iff {pass next : Engine κ σ → Routine κ σ Bool} (hpass : H.Rising pass)
    (hnext : H.Rising next) : H.Endless (fun E => E.roundWith (pass E) (next E)) t ↔
      H.Endless (·.drain .async) t ∨ ∃ u, H.Ends (·.drain .async) t (.ok ()) u ∧
        (H.Endless pass u ∨ ∃ dirty v, H.Ends pass u (.ok dirty) v ∧
          (dirty = true ∨ v.queues.async ≠ []) ∧ H.Endless next v) := by
  have hrest : ∀ dirty, H.Rising fun E =>
      Compute.read (fun t : Tree κ σ => t.queues.async.isEmpty) >>= fun idle =>
        if !dirty && idle then pure true else next E := by
    intro dirty
    refine (rising_const _).bind fun idle => ?_
    cases !dirty && idle with
    | true => exact rising_const _
    | false => exact hnext
  have hstep : ∀ dirty v, H.Endless (fun E =>
      Compute.read (fun t : Tree κ σ => t.queues.async.isEmpty) >>= fun idle =>
        if !dirty && idle then pure true else next E) v ↔
      (dirty = true ∨ v.queues.async ≠ []) ∧ H.Endless next v := by
    intro dirty v
    refine endless_read_bind_iff.trans ?_
    cases hsettled : !dirty && v.queues.async.isEmpty with
    | true =>
      refine iff_of_false (fun h => absurd ⟨0, rfl⟩ h.not_ends) fun h => ?_
      cases hsettled.symm.trans (Engine.unsettled_iff.2 h.1)
    | false => exact (and_iff_right (Engine.unsettled_iff.1 hsettled)).symm
  refine (endless_bind_iff (rising_drain .async) fun _ => hpass.bind hrest).trans ?_
  refine or_congr_right ⟨?_, ?_⟩
  · rintro ⟨_, u, hdrain, h⟩
    refine ⟨u, hdrain, ((endless_bind_iff hpass hrest).1 h).imp_right ?_⟩
    rintro ⟨dirty, v, hends, h⟩
    exact ⟨dirty, v, hends, (hstep dirty v).1 h⟩
  · rintro ⟨u, hdrain, h⟩
    refine ⟨(), u, hdrain, (endless_bind_iff hpass hrest).2 (h.imp_right ?_)⟩
    rintro ⟨dirty, v, hends, h⟩
    exact ⟨dirty, v, hends, (hstep dirty v).2 h⟩

/-- The rounds of a digest have no end just if they come to a drain or to a pass without end. -/
lemma endless_passes_iff : H.Endless (·.passes s n) t ↔ ∃ m u, H.GoesOn s n t m u ∧
    (H.Endless (·.drain .async) u ∨
      ∃ v, H.Ends (·.drain .async) u (.ok ()) v ∧ H.Endless (·.pass s) v) := by
  simp only [Engine.passes_eq_passesWith]
  induction n generalizing t with
  | zero =>
    refine (endless_roundWith_iff (rising_pass s) (rising_const _)).trans ?_
    constructor
    · rintro (h | ⟨u, hdrain, h | ⟨dirty, v, -, -, h⟩⟩)
      · exact ⟨0, t, .stay 0 t, .inl h⟩
      · exact ⟨0, t, .stay 0 t, .inr ⟨u, hdrain, h⟩⟩
      · exact absurd ⟨0, rfl⟩ h.not_ends
    · rintro ⟨m, u, hgoes, h⟩
      cases hgoes
      exact h.imp_right fun ⟨v, hdrain, h⟩ => ⟨v, hdrain, .inl h⟩
  | succ n ih =>
    have hnext : H.Rising fun E => E.passesWith (E.pass s) n := by
      simp only [← Engine.passes_eq_passesWith]
      exact rising_passes s n
    refine (endless_roundWith_iff (rising_pass s) hnext).trans ?_
    constructor
    · rintro (h | ⟨u, hdrain, h | ⟨dirty, v, hpass, hunsettled, h⟩⟩)
      · exact ⟨n + 1, t, .stay _ t, .inl h⟩
      · exact ⟨n + 1, t, .stay _ t, .inr ⟨u, hdrain, h⟩⟩
      · obtain ⟨m, z, hgoes, h⟩ := ih.1 h
        exact ⟨m, z, .round hdrain hpass hunsettled hgoes, h⟩
    · rintro ⟨m, z, hgoes, h⟩
      cases hgoes with
      | stay => exact h.imp_right fun ⟨v, hdrain, h⟩ => ⟨v, hdrain, .inl h⟩
      | round hdrain hpass hunsettled hrest =>
        exact .inr ⟨_, hdrain, .inr ⟨_, _, hpass, hunsettled, ih.2 ⟨m, z, hrest, h⟩⟩⟩

/-! ## Loops -/

lemma rising_opening : H.Rising (·.opening) :=
  (rising_const _).bind fun _ => (rising_const _).bind fun _ => rising_drain .apply

lemma rising_loop (s : ScopeId) : H.Rising (·.loop s) :=
  rising_opening.bind fun _ => (rising_const _).bind fun ttl =>
    (rising_passes s ttl).bind fun _ => rising_const _

/-- The loop of a digest has no end just if it comes to a drain or to a pass that has none. -/
lemma endless_loop_cases (hidle : t.phase = none) : H.Endless (·.loop s) t ↔
    (∃ q u, H.DrainAt s t q u ∧ H.Endless (·.drain q) u) ∨
      ∃ u, H.PassAt s t u ∧ H.Endless (·.pass s) u := by
  have hrest : H.Rising fun E =>
      Compute.read (fun t : Tree κ σ => t.config.digestTtl) >>= fun ttl =>
        E.passes s ttl >>= fun settled => pure (settled, ttl) :=
    (rising_const _).bind fun ttl => (rising_passes s ttl).bind fun _ => rising_const _
  have hbegun : H.Endless (·.opening) t ↔ H.Endless (·.drain .apply) t.begun :=
    forall_congr' fun limit => by rw [Engine.runOn_opening hidle]
  refine (endless_bind_iff rising_opening fun _ => hrest).trans ?_
  rw [hbegun]
  constructor
  · rintro (h | ⟨_, v, hends, h⟩)
    · exact .inl ⟨.apply, t.begun, .opening, h⟩
    · have hgoes := (endless_map_iff (rising_passes s _) _).1 (endless_read_bind_iff.1 h)
      obtain ⟨m, u, hgoes, h | ⟨w, hdrain, h⟩⟩ := endless_passes_iff.1 hgoes
      · exact .inl ⟨.async, u, .round ⟨v, m, hends, hgoes⟩, h⟩
      · exact .inr ⟨w, ⟨u, ⟨v, m, hends, hgoes⟩, hdrain⟩, h⟩
  · have hlater : ∀ u, H.RoundAt s t u → (H.Endless (·.drain .async) u ∨
        ∃ v, H.Ends (·.drain .async) u (.ok ()) v ∧ H.Endless (·.pass s) v) →
        ∃ a v, H.Ends (·.opening) t (.ok a) v ∧ H.Endless (fun E =>
          Compute.read (fun t : Tree κ σ => t.config.digestTtl) >>= fun ttl =>
            E.passes s ttl >>= fun settled => pure (settled, ttl)) v := by
      rintro u ⟨v, m, hends, hgoes⟩ h
      refine ⟨(), v, hends, endless_read_bind_iff.2 ?_⟩
      exact (endless_map_iff (rising_passes s _) _).2 (endless_passes_iff.2 ⟨m, u, hgoes, h⟩)
    rintro (⟨q, u, hdrain, h⟩ | ⟨u, ⟨v, hround, hends⟩, h⟩)
    · cases hdrain with
      | opening => exact .inl h
      | round hround => exact .inr (hlater u hround (.inl h))
    · exact .inr (hlater v hround (.inr ⟨u, hends, h⟩))

/-- The loop of a digest has no end just if it hangs, is overworked or goes down for ever. -/
lemma endless_loop_iff (hidle : t.phase = none) : H.Endless (·.loop s) t ↔
    H.Hangs s t ∨ H.Overworks s t ∨ H.Deepens s t := by
  rw [endless_loop_cases hidle]
  constructor
  · rintro (⟨q, u, hdrain, h⟩ | ⟨u, hpass, h⟩)
    · rcases endless_drain_iff.1 h with ⟨n, v, task, v', hworks, htask, h⟩ | h
      · exact .inl (.task hdrain hworks htask h)
      · exact .inr (.inl ⟨q, u, hdrain, h⟩)
    · rcases endless_pass_iff.1 h with ⟨n, b, v, hscope, h⟩ | h
      · obtain ⟨before, w, after, f, z, hwatchers, hbefore, hf, h⟩ := endless_visitScope_iff.1 h
        obtain ⟨hactive, h⟩ := endless_visitWatcher_iff.1 h
        have hturn : H.TurnAt s t w z := .intro hpass hscope hwatchers hbefore hf hactive
        rcases h with h | ⟨change, v', hcheck, h⟩
        · obtain ⟨watcher, hwatcher, h | ⟨new, v', hobserve, h⟩⟩ := endless_check_iff.1 h
          · exact .inl (.observation hturn hwatcher h)
          · obtain ⟨watcher', hwatcher', hdiffers, hbyValue, hcyclic⟩ := Tree.record_eq_none_iff.1 h
            exact .inl (.record hturn hwatcher hobserve hwatcher' hdiffers hbyValue hcyclic)
        · exact .inl (.reaction hturn hcheck h)
      · exact .inr (.inr ⟨u, hpass, h⟩)
  · have hvisit : ∀ {w z}, H.TurnAt s t w z → H.Endless (·.visitWatcher w) z →
        ∃ u, H.PassAt s t u ∧ H.Endless (·.pass s) u := by
      rintro w z ⟨hpass, hscope, hwatchers, hbefore, hf, -⟩ h
      exact ⟨_, hpass, endless_pass_iff.2 (.inl ⟨_, _, _, hscope,
        endless_visitScope_iff.2 ⟨_, w, _, _, z, hwatchers, hbefore, hf, h⟩⟩)⟩
    have hactive : ∀ {w z}, H.TurnAt s t w z → z.isActive w = true := fun ⟨_, _, _, _, _, h⟩ => h
    rintro (h | ⟨q, u, hdrain, h⟩ | ⟨u, hpass, h⟩)
    · cases h with
      | task hdrain hworks htask h =>
        exact .inl ⟨_, _, hdrain, endless_drain_iff.2 (.inl ⟨_, _, _, _, hworks, htask, h⟩)⟩
      | observation hturn hwatcher h =>
        exact .inr (hvisit hturn (endless_visitWatcher_iff.2 ⟨hactive hturn,
          .inl (endless_check_iff.2 ⟨_, hwatcher, .inl h⟩)⟩))
      | record hturn hwatcher hobserve hwatcher' hdiffers hbyValue hcyclic =>
        have hrecord := Tree.record_eq_none_iff.2 ⟨_, hwatcher', hdiffers, hbyValue, hcyclic⟩
        exact .inr (hvisit hturn (endless_visitWatcher_iff.2 ⟨hactive hturn,
          .inl (endless_check_iff.2 ⟨_, hwatcher, .inr ⟨_, _, hobserve, hrecord⟩⟩)⟩))
      | reaction hturn hcheck h =>
        exact .inr (hvisit hturn (endless_visitWatcher_iff.2 ⟨hactive hturn,
          .inr ⟨_, _, hcheck, h⟩⟩))
    · exact .inl ⟨q, u, hdrain, endless_drain_iff.2 (.inr h)⟩
    · exact .inr ⟨u, hpass, endless_pass_iff.2 (.inr h)⟩

/-- The loop of a digest ends with word whether it settled, if no phase is active. -/
lemma ok_of_loop {r : Except Error (Bool × ℕ)} (hidle : t.phase = none)
    (h : H.Ends (·.loop s) t r u) : ∃ settled ttl, r = .ok (settled, ttl) := by
  obtain ⟨limit, h⟩ := h
  rcases runOn_bind_cases h with ⟨e, hopening, -⟩ | ⟨_, v, -, h⟩
  · rw [Engine.runOn_opening hidle] at hopening
    cases Engine.ok_of_drainWithin hopening
  rw [Compute.runOn_read_bind] at h
  rcases runOn_bind_cases h with ⟨e, hpasses, -⟩ | ⟨settled, w, -, h⟩
  · obtain ⟨settled, he⟩ := Engine.ok_of_passes hpasses
    cases he
  · cases h
    exact ⟨settled, v.config.digestTtl, rfl⟩

/-- Only while no phase is active does a digest come to its loop. -/
lemma idle_of_loop {a : Bool × ℕ} (h : H.Ends (·.loop s) t (.ok a) u) : t.phase = none := by
  obtain ⟨limit, h⟩ := h
  rcases runOn_bind_cases h with ⟨e, -, hr⟩ | ⟨_, v, hopening, -⟩
  · cases hr
  · exact (Engine.drain_of_opening hopening).1

variable (H) in
/-- The loop of a digest comes to its end, settled or not, just if no phase is active and it neither
hangs nor is overworked nor goes down for ever. -/
theorem loop_ends_iff (s : ScopeId) (t : Tree κ σ) :
    (∃ settled ttl u, H.Ends (·.loop s) t (.ok (settled, ttl)) u) ↔
      t.phase = none ∧ ¬ H.Hangs s t ∧ ¬ H.Overworks s t ∧ ¬ H.Deepens s t := by
  rw [← not_or, ← not_or]
  constructor
  · rintro ⟨settled, ttl, u, hends⟩
    have hidle := idle_of_loop hends
    exact ⟨hidle, fun hways => ((endless_loop_iff hidle).2 hways).not_ends hends⟩
  · rintro ⟨hidle, hways⟩
    have hnot : ¬ H.Endless (·.loop s) t := fun hendless =>
      hways ((endless_loop_iff hidle).1 hendless)
    obtain ⟨r, u, hends⟩ := (ends_or_endless (H := H) (·.loop s) t).resolve_right hnot
    obtain ⟨settled, ttl, rfl⟩ := ok_of_loop hidle hends
    exact ⟨settled, ttl, u, hends⟩

end Host

/-! ## A host whose tasks have no end -/

/-- The procedure of a host that does one thing. -/
inductive Again where
  | again

/-- A host with a task that queues itself again. -/
def again : Host Again Unit where
  library := ⟨fun _ _ _ => .endless, fun _ _ => .endless⟩
  report := fun _ host => host
  procedure _ _ := do
    Program.request (.evalAsync rootId .again)
    return .undefined

/-- Queues the task for the first time. -/
def againSetup : Program Again Unit Unit := Program.request (.evalAsync rootId Again.again)

lemma again_call (how : Invocation) (t : Tree Again Unit) :
    again.Ends (·.call .again how) t (.ok .undefined)
      ((t.note (.called .again how)).queueAsync rootId (.procedure .again)) :=
  ⟨1, rfl⟩

lemma async_queueAsync (t : Tree κ σ) (s : ScopeId) (work : Work κ) :
    (t.queueAsync s work).queues.async = t.queues.async ++ [⟨t.queues.next, s, work⟩] := by
  unfold Tree.queueAsync
  split <;> rfl

/-- Where that task is the only one, any number of tasks can be run. -/
lemma again_works {t : Tree Again Unit} {number : ℕ} {s : ScopeId}
    (ht : t.queues.async = [⟨number, s, .procedure .again⟩]) (n : ℕ) :
    ∃ u, again.Works .async n t u := by
  induction n generalizing t number s with
  | zero => exact ⟨t, .none t⟩
  | succ n ih =>
    -- the task leaves the queue empty and puts itself there again
    obtain ⟨⟨task, t'⟩, htask⟩ := Option.ne_none_iff_exists'.1 fun hnone =>
      List.cons_ne_nil _ _ (ht.symm.trans ((t.dequeue?_eq_none_iff .async).1 hnone))
    obtain ⟨rfl, hempty⟩ := List.cons.inj (ht.symm.trans (Tree.tasks_of_dequeue? htask))
    have hqueued := async_queueAsync (t'.note (.called Again.again (.task s))) rootId
      (.procedure .again)
    obtain ⟨u, hu⟩ := ih (hqueued.trans (congrArg (· ++ _) hempty.symm))
    exact ⟨u, .more htask ⟨1, rfl⟩ hu⟩

/-- The tree of that host before a digest, and when the digest comes to its first round. -/
lemma again_run : ∃ t v, again.run 9 againSetup
      (.plant ⟨.empty, ()⟩ ⟨.empty, .empty⟩ {} false) = some (.ok (), t) ∧
    t.phase = none ∧ t.watchers = #[] ∧ again.Ends (·.opening) t (.ok ()) v ∧
    v.queues.async = [⟨0, rootId, .procedure .again⟩] :=
  ⟨_, _, rfl, rfl, rfl, ⟨1, rfl⟩, rfl⟩

/-- All calls of a procedure can come to their ends and a digest have none, without any watcher. -/
theorem again_has_no_end : ∃ t, again.run 9 againSetup
      (.plant ⟨.empty, ()⟩ ⟨.empty, .empty⟩ {} false) = some (.ok (), t) ∧
    t.phase = none ∧ t.watchers = #[] ∧
    (∀ procedure how u, ∃ r v, again.Ends (·.call procedure how) u r v) ∧
    again.Endless (·.loop rootId) t := by
  obtain ⟨t, v, hsetup, hidle, hwatchers, hopening, hqueue⟩ := again_run
  refine ⟨t, hsetup, hidle, hwatchers, ?_, ?_⟩
  · rintro ⟨⟩ how u
    exact ⟨_, _, again_call how u⟩
  · have hdrain : again.DrainAt rootId t .async v := .round ⟨v, _, hopening, .stay _ v⟩
    exact (Host.endless_loop_iff hidle).2 (.inr (.inl ⟨.async, v, hdrain, again_works hqueue⟩))

end DataBinding
