import DataBinding.Proofs.Independence
import DataBinding.Proofs.Rounds
import DataBinding.Proofs.Turns

/-!
# Runs without a limit

A run that reaches the limit of its engine has no end there, and may have one with a higher limit.
`Host.Ends` says what the engine of a host does if its limit is high enough, and `Host.Endless` that
it has no end whatever its limit.  Since a run that has an end is the same with every higher limit,
there is one end at most, and what is composed has no end just if one of its parts, begun where the
parts before have ended, has none (`Host.endless_bind_iff`).

Two things have loops whose length the limit holds.  A queue is drained without end if a task has no
end or if it runs so many tasks for every number (`Host.endless_drain_iff`).  A walk has no end if a
visit has none or if it goes so many levels down for every number (`Host.endless_walk_iff`).
-/

namespace DataBinding

open Compute (Follows runOn runOn_bind_cases)

variable {κ σ α β : Type}

namespace Host

variable (H : Host κ σ)

/-- The engine of the host does this if its limit is high enough. -/
def Ends (m : Engine κ σ → Routine κ σ α) (t : Tree κ σ) (r : Except Error α) (u : Tree κ σ) :
    Prop :=
  ∃ limit, runOn (m (H.engine limit)) t = some (r, u)

/-- The engine of the host has no end with this, whatever its limit. -/
def Endless (m : Engine κ σ → Routine κ σ α) (t : Tree κ σ) : Prop :=
  ∀ limit, runOn (m (H.engine limit)) t = none

/-- With a higher limit the engine of the host does the same, but more of it has an end. -/
def Rising (m : Engine κ σ → Routine κ σ α) : Prop :=
  ∀ ⦃limit limit'⦄, limit ≤ limit' →
    Follows (Tree.Alike Eq) (m (H.engine limit)) (m (H.engine limit'))

variable {H} {m : Engine κ σ → Routine κ σ α} {f : Engine κ σ → α → Routine κ σ β}
  {t u v : Tree κ σ} {r r' : Except Error α}

/-! ## Ends -/

lemma rising (h : ∀ {E E' : Engine κ σ}, E.Akin (.journal Eq lasting_eq) E' →
    Follows (Tree.Alike Eq) (m E) (m E')) : H.Rising m := fun _ _ hle => h (H.akin_of_le hle)

lemma Rising.runOn_of_le (hm : H.Rising m) {limit limit' : ℕ} (hle : limit ≤ limit')
    (h : runOn (m (H.engine limit)) t = some (r, u)) :
    runOn (m (H.engine limit')) t = some (r, u) := by
  obtain ⟨u', hrun, journal, rfl, rfl⟩ := hm hle ⟨t.journal, rfl, rfl⟩ h
  exact hrun

lemma rising_const (m : Routine κ σ α) : H.Rising fun _ => m := by
  rintro _ _ _ t _ r u ⟨journal, rfl, rfl⟩ h
  exact ⟨u, h, u.journal, rfl, rfl⟩

lemma Rising.bind (hm : H.Rising m) (hf : ∀ a, H.Rising fun E => f E a) :
    H.Rising fun E => m E >>= f E :=
  fun _ _ hle => (hm hle).bind fun a => hf a hle

/-- The engines of all limits together are a computation without a limit. -/
lemma Rising.compute (hm : H.Rising m) : Compute.Rising fun limit => m (H.engine limit) := by
  rintro limit limit' hle t _ r u rfl h
  exact ⟨u, hm.runOn_of_le hle h, rfl⟩

/-- There is one end at most. -/
lemma Ends.unique (hm : H.Rising m) (h : H.Ends m t r u) (h' : H.Ends m t r' v) :
    r = r' ∧ u = v :=
  Compute.Ends.unique hm.compute h h'

lemma ends_or_endless (m : Engine κ σ → Routine κ σ α) (t : Tree κ σ) :
    (∃ r u, H.Ends m t r u) ∨ H.Endless m t :=
  (Classical.em _).symm.imp_left Compute.not_endless_iff.1

lemma Endless.not_ends (h : H.Endless m t) : ¬ H.Ends m t r u := Compute.Endless.not_ends h

/-- Two steps have no end just if the first has none, or the second has none where the first has
ended. -/
lemma endless_bind_iff (hm : H.Rising m) (hf : ∀ a, H.Rising fun E => f E a) :
    H.Endless (fun E => m E >>= f E) t ↔
      H.Endless m t ∨ ∃ a v, H.Ends m t (.ok a) v ∧ H.Endless (fun E => f E a) v :=
  Compute.endless_bind_iff (f := fun limit => f (H.engine limit)) hm.compute fun a => (hf a).compute

lemma endless_read_bind_iff {g : Tree κ σ → α} :
    H.Endless (fun E => Compute.read g >>= f E) t ↔ H.Endless (fun E => f E (g t)) t :=
  forall_congr' fun limit => by rw [Compute.runOn_read_bind]

lemma endless_change_bind_iff {g : Tree κ σ → Tree κ σ} {f : Engine κ σ → Unit → Routine κ σ β} :
    H.Endless (fun E => Compute.change g >>= f E) t ↔ H.Endless (fun E => f E ()) (g t) :=
  forall_congr' fun limit => by rw [Compute.runOn_change_bind]

lemma endless_map_iff (hm : H.Rising m) (g : α → β) :
    H.Endless (fun E => m E >>= fun a => pure (g a)) t ↔ H.Endless m t := by
  exact Compute.endless_bind_total_iff hm.compute fun a => Compute.total_pure (g a)

lemma endless_alterEndless_iff {g : Tree κ σ → Option (α × Tree κ σ)} :
    H.Endless (fun _ => Compute.alterEndless g) t ↔ g t = none := by
  simp only [Endless, Compute.runOn_alterEndless, Option.map_eq_none_iff, forall_const]

/-- What is contained has no end just if it has none by itself. -/
lemma endless_contained_iff {m : Engine κ σ → Routine κ σ Unit} :
    H.Endless (fun E => E.contained (m E)) t ↔ H.Endless m t := by
  constructor
  · intro h limit
    by_contra hsome
    obtain ⟨⟨r, u⟩, hrun⟩ := Option.ne_none_iff_exists'.1 hsome
    have hnone := h limit
    unfold Engine.contained at hnone
    rw [Compute.runOn_attempt_bind_of_run hrun] at hnone
    cases r <;> cases hnone
  · intro h limit
    by_contra hsome
    obtain ⟨⟨r, u⟩, hrun⟩ := Option.ne_none_iff_exists'.1 hsome
    obtain ⟨-, r', v, hrun', -⟩ := Engine.runOn_contained_cases hrun
    exact h.not_ends ⟨limit, hrun'⟩

/-! ## Queues -/

variable {q : Queue} {n : ℕ} {task : Task κ}

lemma rising_contained {m : Engine κ σ → Routine κ σ Unit} (hm : H.Rising m) :
    H.Rising fun E => E.contained (m E) :=
  fun _ _ hle => Engine.follows_contained (H.akin_of_le hle) ((hm hle).shadows False)

lemma rising_perform (s : ScopeId) (work : Work κ) : H.Rising (·.perform s work) :=
  rising fun hE => (Engine.shadows_perform hE s work).follows id

lemma rising_drain (q : Queue) : H.Rising (·.drain q) :=
  rising fun hE => Engine.follows_drain hE q

variable (H) in
/-- So many tasks of a queue have been run, one after another. -/
inductive Works (q : Queue) : ℕ → Tree κ σ → Tree κ σ → Prop
  | none (t : Tree κ σ) : Works q 0 t t
  | more {n : ℕ} {task : Task κ} {t t' u v : Tree κ σ} (htask : t.dequeue? q = some (task, t'))
      (hperform : H.Ends (fun E => E.contained (E.perform task.scope task.work)) t' (.ok ()) u)
      (hrest : Works q n u v) : Works q (n + 1) t v

lemma Works.snoc {u' v : Tree κ σ} (h : H.Works q n t u) (htask : u.dequeue? q = some (task, u'))
    (hperform : H.Ends (fun E => E.contained (E.perform task.scope task.work)) u' (.ok ()) v) :
    H.Works q (n + 1) t v := by
  induction h with
  | none => exact .more htask hperform (.none v)
  | more htask' hperform' _ ih => exact .more htask' hperform' (ih htask)

/-- A queue that is not drained for ever has a number of tasks that it does not reach. -/
lemma Works.lt_of_drainWithin {limit k : ℕ} {r : Except Error Unit} {z : Tree κ σ}
    (h : H.Works q n t u) (hrun : runOn ((H.engine limit).drainWithin q k) t = some (r, z)) :
    n < k ∧ runOn ((H.engine limit).drainWithin q (k - n)) u = some (r, z) := by
  induction h generalizing k with
  | none =>
    cases k with
    | zero => cases hrun
    | succ k => exact ⟨Nat.succ_pos k, hrun⟩
  | @more n task t t' u v htask hperform _ ih =>
    cases k with
    | zero => cases hrun
    | succ k =>
      rw [Engine.drainWithin, Compute.runOn_bind_of_ok (Compute.runOn_alter?_of_some htask)] at hrun
      have hrising := rising_contained (rising_perform (H := H) task.scope task.work)
      rcases runOn_bind_cases hrun with ⟨e, hrun', -⟩ | ⟨_, w, hrun', hrest⟩
      · cases (Ends.unique hrising hperform ⟨limit, hrun'⟩).1
      · obtain ⟨-, rfl⟩ := Ends.unique hrising hperform ⟨limit, hrun'⟩
        obtain ⟨hlt, hends⟩ := ih hrest
        rw [Nat.succ_sub_succ]
        exact ⟨Nat.succ_lt_succ hlt, hends⟩

lemma Endless.runOn_drainWithin (h : H.Endless (·.drain q) t) (limit k : ℕ) :
    runOn ((H.engine limit).drainWithin q k) t = none := by
  by_contra hsome
  obtain ⟨⟨r, u⟩, hrun⟩ := Option.ne_none_iff_exists'.1 hsome
  obtain ⟨u', hrun', -⟩ := Engine.follows_drainWithin
    (H.akin_of_le (Nat.le_max_left limit k)) q (Nat.le_max_right limit k) ⟨t.journal, rfl, rfl⟩
    hrun
  exact h.not_ends ⟨max limit k, hrun'⟩

/-- A queue that is drained without end has a task, which has no end, or after which the queue is
drained without end. -/
lemma Endless.drain_cases (h : H.Endless (·.drain q) t) : ∃ task t',
    t.dequeue? q = some (task, t') ∧ (H.Endless (·.perform task.scope task.work) t' ∨
      ∃ u, H.Ends (fun E => E.contained (E.perform task.scope task.work)) t' (.ok ()) u ∧
        H.Endless (·.drain q) u) := by
  cases htask : t.dequeue? q with
  | none =>
    have hnone := h.runOn_drainWithin 0 1
    rw [Engine.drainWithin, Compute.runOn_bind_of_ok (Compute.runOn_alter?_of_none htask)] at hnone
    cases hnone
  | some x =>
    obtain ⟨task, t'⟩ := x
    refine ⟨task, t', rfl, ?_⟩
    have hrising := rising_contained (rising_perform (H := H) task.scope task.work)
    rcases ends_or_endless (H := H)
      (fun E => E.contained (E.perform task.scope task.work)) t' with ⟨r, u, hperform⟩ | hendless
    · obtain ⟨limit, hrun⟩ := id hperform
      obtain ⟨rfl, -⟩ := Engine.runOn_contained_cases hrun
      refine .inr ⟨u, hperform, fun limit' => ?_⟩
      have hnone := h.runOn_drainWithin (max limit limit') (limit' + 1)
      rw [Engine.drainWithin, Compute.runOn_bind_of_ok (Compute.runOn_alter?_of_some htask),
        Compute.runOn_bind_of_ok (hrising.runOn_of_le (Nat.le_max_left limit limit') hrun)] at hnone
      by_contra hsome
      obtain ⟨⟨r, z⟩, hrun'⟩ := Option.ne_none_iff_exists'.1 hsome
      obtain ⟨z', hrun'', -⟩ := Engine.follows_drainWithin
        (H.akin_of_le (Nat.le_max_right limit limit')) q le_rfl ⟨u.journal, rfl, rfl⟩ hrun'
      cases hnone.symm.trans hrun''
    · exact .inl (endless_contained_iff.1 hendless)

/-- A queue is drained without end just if one of its tasks has no end, or if it runs any number of
tasks. -/
theorem endless_drain_iff : H.Endless (·.drain q) t ↔
    (∃ n u task u', H.Works q n t u ∧ u.dequeue? q = some (task, u') ∧
      H.Endless (·.perform task.scope task.work) u') ∨ ∀ n, ∃ u, H.Works q n t u := by
  constructor
  · intro h
    by_contra hnot
    rw [not_or] at hnot
    obtain ⟨htasks, hworks⟩ := hnot
    refine hworks fun n => ?_
    have key : ∃ u, H.Works q n t u ∧ H.Endless (·.drain q) u := by
      induction n with
      | zero => exact ⟨t, .none t, h⟩
      | succ n ih =>
        obtain ⟨u, hu, hendless⟩ := ih
        obtain ⟨task, u', htask, hperform | ⟨v, hperform, hrest⟩⟩ := hendless.drain_cases
        · exact absurd ⟨n, u, task, u', hu, htask, hperform⟩ htasks
        · exact ⟨v, hu.snoc htask hperform, hrest⟩
    obtain ⟨u, hu, -⟩ := key
    exact ⟨u, hu⟩
  · intro h limit
    by_contra hsome
    obtain ⟨⟨r, z⟩, hrun⟩ := Option.ne_none_iff_exists'.1 hsome
    rcases h with ⟨n, u, task, u', hworks, htask, hendless⟩ | hworks
    · obtain ⟨hlt, hrun'⟩ := hworks.lt_of_drainWithin hrun
      obtain ⟨k, hk⟩ := Nat.exists_eq_succ_of_ne_zero (Nat.sub_ne_zero_of_lt hlt)
      rw [hk, Engine.drainWithin,
        Compute.runOn_bind_of_ok (Compute.runOn_alter?_of_some htask)] at hrun'
      have hnone := endless_contained_iff.2 hendless
      rcases runOn_bind_cases hrun' with ⟨e, hrun'', -⟩ | ⟨_, v, hrun'', -⟩
      · exact hnone.not_ends ⟨limit, hrun''⟩
      · exact hnone.not_ends ⟨limit, hrun''⟩
    · obtain ⟨u, hu⟩ := hworks limit
      exact absurd (hu.lt_of_drainWithin hrun).1 (Nat.lt_irrefl _)

/-! ## Walks -/

variable {ι : Type} {visit : Engine κ σ → ι → Routine κ σ Findings}
  {first second : Engine κ σ → Routine κ σ Findings}

lemma rising_inOrder (hvisit : ∀ i, H.Rising fun E => visit E i) (l : List ι) :
    H.Rising fun E => Routine.inOrder (visit E) l :=
  fun _ _ hle => Routine.follows_inOrder (L := .journal Eq lasting_eq) (fun i => hvisit i hle) l

/-- One visit after another has no end just if the first has none, or it does not end the walk and
the second has none. -/
lemma endless_andThen_iff (hfirst : H.Rising first) (hsecond : H.Rising second) :
    H.Endless (fun E => (first E).andThen (second E)) t ↔ H.Endless first t ∨
      ∃ f v, H.Ends first t (.ok f) v ∧ f.ended = false ∧ H.Endless second v := by
  have hrest : ∀ f : Findings, H.Rising fun E => if f.ended then pure f else do
      let b ← second E
      return ⟨f.dirty || b.dirty, b.ended⟩ := by
    intro f
    cases f.ended with
    | true => exact rising_const _
    | false => exact hsecond.bind fun b => rising_const _
  refine (endless_bind_iff hfirst hrest).trans (or_congr_right (exists₂_congr fun f v => ?_))
  refine and_congr_right fun _ => ?_
  cases f.ended with
  | true =>
    refine iff_of_false (fun h => ?_) fun h => nomatch h.1
    exact h.not_ends ⟨0, rfl⟩
  | false =>
    exact (endless_map_iff hsecond _).trans (and_iff_right rfl).symm

lemma ends_andThen {f : Findings} {r : Except Error Findings} (hfirst : H.Rising first)
    (hsecond : H.Rising second) (h : H.Ends first t (.ok f) v) (hf : f.ended = false)
    (h' : H.Ends second v r u) : H.Ends (fun E => (first E).andThen (second E)) t
      (r.map fun b => ⟨f.dirty || b.dirty, b.ended⟩) u := by
  obtain ⟨limit, h⟩ := h
  obtain ⟨limit', h'⟩ := h'
  refine ⟨max limit limit', ?_⟩
  rw [Routine.runOn_andThen_of_not_ended (hfirst.runOn_of_le (Nat.le_max_left _ _) h) hf,
    hsecond.runOn_of_le (Nat.le_max_right _ _) h']
  rfl

/-- Visits in order have no end just if one of them has none, begun where those before have
ended. -/
lemma endless_inOrder_iff (hvisit : ∀ i, H.Rising fun E => visit E i) {l : List ι} :
    H.Endless (fun E => Routine.inOrder (visit E) l) t ↔ ∃ before i after f v,
      l = before ++ i :: after ∧
      H.Ends (fun E => Routine.inOrder (visit E) before) t (.ok f) v ∧ f.ended = false ∧
      H.Endless (fun E => visit E i) v := by
  induction l generalizing t with
  | nil =>
    refine iff_of_false (fun h => h.not_ends ⟨0, rfl⟩) ?_
    rintro ⟨before, i, after, f, v, hl, -⟩
    exact List.append_ne_nil_of_right_ne_nil before (List.cons_ne_nil i after) hl.symm
  | cons x l ih =>
    change H.Endless (fun E => (visit E x).andThen (Routine.inOrder (visit E) l)) t ↔ _
    have hl := rising_inOrder hvisit
    rw [endless_andThen_iff (hvisit x) (hl l)]
    constructor
    · rintro (h | ⟨f, v, hx, hf, h⟩)
      · exact ⟨[], x, l, {}, t, rfl, ⟨0, rfl⟩, rfl, h⟩
      · obtain ⟨before, i, after, g, w, rfl, hbefore, hg, h⟩ := ih.1 h
        exact ⟨x :: before, i, after, ⟨f.dirty || g.dirty, g.ended⟩, w, rfl,
          ends_andThen (hvisit x) (hl before) hx hf hbefore, hg, h⟩
    · rintro ⟨before, i, after, f, v, heq, ⟨limit, hbefore⟩, hf, h⟩
      cases before with
      | nil =>
        cases heq
        cases hbefore
        exact .inl h
      | cons y before =>
        cases heq
        rcases Routine.runOn_andThen_cases hbefore with ⟨e, -, hr⟩ | ⟨a, -, ha, hr⟩ |
          ⟨a, w, r₂, hrun, ha, hrun', hr⟩
        · cases hr
        · cases hr
          exact absurd ha (by simp [hf])
        · cases r₂ with
          | error e => cases hr
          | ok b =>
            cases hr
            exact .inr ⟨a, w, ⟨limit, hrun⟩, ha,
              ih.2 ⟨before, i, after, b, v, rfl, ⟨limit, hrun'⟩, hf, h⟩⟩

section Walks

variable {visit : Engine κ σ → ScopeId → Routine κ σ Findings} {a b c : ScopeId} {d : ℕ}

variable (H) in
/-- A walk from one scope comes so many levels down to another one: all that it does before has an
end and does not end the walk. -/
inductive Descends (visit : Engine κ σ → ScopeId → Routine κ σ Findings) :
    ℕ → ScopeId → Tree κ σ → ScopeId → Tree κ σ → Prop
  | here (a : ScopeId) (t : Tree κ σ) : Descends visit 0 a t a t
  | further {n : ℕ} {a b c : ScopeId} {t u v w : Tree κ σ} {f g : Findings}
      {before after : List ScopeId} (hvisit : H.Ends (fun E => visit E a) t (.ok f) v)
      (hf : f.ended = false) (hchildren : (v.scope a).children = before ++ c :: after)
      (hbefore : H.Ends (fun E => Routine.inOrder (Routine.walk (visit E) E.limit) before) v
        (.ok g) w) (hg : g.ended = false) (hrest : Descends visit n c w b u) :
    Descends visit (n + 1) a t b u

variable (hvisit : ∀ a, H.Rising fun E => visit E a)

include hvisit

lemma rising_walk (d : ℕ) (a : ScopeId) : H.Rising fun E => Routine.walk (visit E) d a :=
  fun _ _ hle => Routine.follows_walk (L := .journal Eq lasting_eq) (fun a => hvisit a hle) le_rfl a

lemma rising_walk_limit (a : ScopeId) : H.Rising fun E => Routine.walk (visit E) E.limit a :=
  fun _ _ hle => Routine.follows_walk (L := .journal Eq lasting_eq) (fun a => hvisit a hle) hle a

lemma Ends.walk_limit {r : Except Error Findings}
    (h : H.Ends (fun E => Routine.walk (visit E) d a) t r u) :
    H.Ends (fun E => Routine.walk (visit E) E.limit a) t r u := by
  obtain ⟨limit, hrun⟩ := h
  obtain ⟨u', hrun', journal, rfl, rfl⟩ := Routine.follows_walk (L := .journal Eq lasting_eq)
    (fun a => hvisit a (Nat.le_max_left limit d)) (Nat.le_max_right limit d) a
    ⟨t.journal, rfl, rfl⟩ hrun
  exact ⟨max limit d, hrun'⟩

lemma Ends.walkAll_limit {r : Except Error Findings} {cs : List ScopeId}
    (h : H.Ends (fun E => Routine.inOrder (Routine.walk (visit E) d) cs) t r u) :
    H.Ends (fun E => Routine.inOrder (Routine.walk (visit E) E.limit) cs) t r u := by
  obtain ⟨limit, hrun⟩ := h
  obtain ⟨u', hrun', journal, rfl, rfl⟩ := Routine.follows_inOrder (L := .journal Eq lasting_eq)
    (Routine.follows_walk (fun a => hvisit a (Nat.le_max_left limit d)) (Nat.le_max_right limit d))
    cs ⟨t.journal, rfl, rfl⟩ hrun
  exact ⟨max limit d, hrun'⟩

/-- A walk of so many levels has no end only if a visit has none, or if it comes down all of
them. -/
lemma Endless.walk_cases (h : H.Endless (fun E => Routine.walk (visit E) d a) t) :
    (∃ n b u, H.Descends visit n a t b u ∧ H.Endless (fun E => visit E b) u) ∨
      ∃ b u, H.Descends visit d a t b u := by
  induction d generalizing a t with
  | zero => exact .inr ⟨a, t, .here a t⟩
  | succ d ih =>
    have hwalks := rising_inOrder (rising_walk hvisit d)
    have hchildren : H.Rising fun E => Compute.read (fun t : Tree κ σ => (t.scope a).children) >>=
        Routine.inOrder (Routine.walk (visit E) d) :=
      (rising_const _).bind hwalks
    rcases (endless_andThen_iff (hvisit a) hchildren).1 h with h | ⟨f, v, hends, hf, h⟩
    · exact .inl ⟨0, a, t, .here a t, h⟩
    · rw [endless_read_bind_iff, endless_inOrder_iff (rising_walk hvisit d)] at h
      obtain ⟨before, c, after, g, w, heq, hbefore, hg, h⟩ := h
      have hbelow := fun {n b u} => Descends.further (n := n) (b := b) (u := u) hends hf heq
        (hbefore.walkAll_limit hvisit) hg
      rcases ih h with ⟨n, b, u, hrest, h⟩ | ⟨b, u, hrest⟩
      · exact .inl ⟨n + 1, b, u, hbelow hrest, h⟩
      · exact .inr ⟨b, u, hbelow hrest⟩

/-- Where a walk has an end, the walks that it comes to have ends too. -/
lemma Descends.ends_of_walk {n limit : ℕ} {r : Except Error Findings} {z : Tree κ σ}
    (h : H.Descends visit n a t b u)
    (hrun : runOn (Routine.walk (visit (H.engine limit)) d a) t = some (r, z)) :
    ∃ k, d = n + k ∧ ∃ r' z',
      runOn (Routine.walk (visit (H.engine limit)) k b) u = some (r', z') := by
  induction h generalizing d r z with
  | here => exact ⟨d, (Nat.zero_add d).symm, r, z, hrun⟩
  | @further n a b c t u v w f g before after hends hf hchildren hbefore hg _ ih =>
    cases d with
    | zero => cases hrun
    | succ d =>
      have hwalk : ∃ r₁ z₁,
          runOn (Routine.walk (visit (H.engine limit)) d c) w = some (r₁, z₁) := by
        rcases Routine.runOn_andThen_cases hrun with ⟨e, hrun', -⟩ | ⟨f', hrun', hf', -⟩ |
          ⟨f', v', r₂, hrun', -, hrest, -⟩
        · cases (Ends.unique (hvisit a) hends ⟨limit, hrun'⟩).1
        · cases (Ends.unique (hvisit a) hends ⟨limit, hrun'⟩).1
          exact absurd hf' (by simp [hf])
        · obtain ⟨-, rfl⟩ := Ends.unique (hvisit a) hends ⟨limit, hrun'⟩
          rw [Compute.runOn_read_bind, hchildren, Routine.inOrder_append] at hrest
          have hunique := fun {r u} (h : runOn (Routine.inOrder
              (Routine.walk (visit (H.engine limit)) d) before) v = some (r, u)) =>
            Ends.unique (rising_inOrder (rising_walk_limit hvisit) before) hbefore
              (Ends.walkAll_limit (d := d) hvisit ⟨limit, h⟩)
          rcases Routine.runOn_andThen_cases hrest with ⟨e, hrun'', -⟩ | ⟨g', hrun'', hg', -⟩ |
            ⟨g', w', r₃, hrun'', -, hlast, -⟩
          · cases (hunique hrun'').1
          · cases (hunique hrun'').1
            exact absurd hg' (by simp [hg])
          · obtain ⟨-, rfl⟩ := hunique hrun''
            rcases Routine.runOn_andThen_cases hlast with ⟨e, hc, -⟩ | ⟨a, hc, -⟩ |
              ⟨a, v, r₄, hc, -⟩
            · exact ⟨_, _, hc⟩
            · exact ⟨_, _, hc⟩
            · exact ⟨_, _, hc⟩
      obtain ⟨r₁, z₁, hwalk⟩ := hwalk
      obtain ⟨k, rfl, hends⟩ := ih hwalk
      exact ⟨k, by omega, hends⟩

/-- A walk has no end just if a visit has none, or if it comes any number of levels down. -/
theorem endless_walk_iff : H.Endless (fun E => Routine.walk (visit E) E.limit a) t ↔
    (∃ n b u, H.Descends visit n a t b u ∧ H.Endless (fun E => visit E b) u) ∨
      ∀ n, ∃ b u, H.Descends visit n a t b u := by
  constructor
  · intro h
    by_contra hnot
    rw [not_or] at hnot
    refine hnot.2 fun n => ?_
    have hn : H.Endless (fun E => Routine.walk (visit E) n a) t := by
      rcases ends_or_endless (H := H) (fun E => Routine.walk (visit E) n a) t with
        ⟨r, u, hends⟩ | hendless
      · exact absurd (hends.walk_limit hvisit) h.not_ends
      · exact hendless
    exact (hn.walk_cases hvisit).resolve_left hnot.1
  · intro h limit
    by_contra hsome
    obtain ⟨⟨r, z⟩, hrun⟩ := Option.ne_none_iff_exists'.1 hsome
    rcases h with ⟨n, b, u, hdescends, h⟩ | h
    · obtain ⟨k, -, r', z', hrun'⟩ := hdescends.ends_of_walk hvisit hrun
      cases k with
      | zero => cases hrun'
      | succ k =>
        rcases Routine.runOn_andThen_cases hrun' with ⟨e, hb, -⟩ | ⟨f, hb, -⟩ | ⟨f, v, r₂, hb, -⟩
        · exact h.not_ends ⟨limit, hb⟩
        · exact h.not_ends ⟨limit, hb⟩
        · exact h.not_ends ⟨limit, hb⟩
    · obtain ⟨b, u, hdescends⟩ := h limit
      obtain ⟨k, hk, r', z', hrun'⟩ := hdescends.ends_of_walk hvisit hrun
      have hk : k = 0 := by
        have hlimit : (H.engine limit).limit = limit := rfl
        omega
      subst hk
      cases hrun'

end Walks

end Host

end DataBinding
