import DataBinding.Proofs.Interlude

/-!
# The work that waits

Tasks are numbered in the order in which they are queued, so the number that comes next tells how
many there have been (`Tree.Numbered`).  A pass runs no task: while it lasts, the queues stay as
they are unless a task is added, and then the number goes up (`Tree.Queued`).
-/

namespace DataBinding

open Compute (runOn)
variable {κ σ : Type}

namespace Tree

variable {t u v : Tree κ σ}

/-- No number is given twice. -/
def Numbered (t u : Tree κ σ) : Prop := t.queues.next ≤ u.queues.next

instance : IsPreorder (Tree κ σ) Numbered where
  refl _ := Nat.le_refl _
  trans _ _ _ := Nat.le_trans

/-- The queues are as they were, unless a task was added. -/
structure Queued (t u : Tree κ σ) : Prop where
  numbered : Numbered t u
  steady : u.queues.next = t.queues.next → u.queues = t.queues

lemma Queued.of_queues (h : u.queues = t.queues) : Queued t u :=
  ⟨(congrArg Queues.next h).ge, fun _ => h⟩

instance : IsPreorder (Tree κ σ) Queued where
  refl _ := .of_queues rfl
  trans t u v h₁ h₂ := by
    refine ⟨trans_of Numbered h₁.numbered h₂.numbered, fun h => ?_⟩
    have hmid : u.queues.next = t.queues.next :=
      Nat.le_antisymm (h ▸ h₂.numbered) h₁.numbered
    exact (h₂.steady (h.trans hmid.symm)).trans (h₁.steady hmid)

lemma queues_removeWatcher (t : Tree κ σ) (w : WatcherId) :
    (t.removeWatcher w).queues = t.queues := by
  rcases removeWatcher_cases t w with h | ⟨_, -, ⟨-, h⟩ | ⟨-, h⟩⟩ <;> rw [h] <;> rfl

lemma queues_tearDown (t : Tree κ σ) (s : ScopeId) : (t.tearDown s).queues = t.queues := by
  obtain ⟨_, h⟩ := tearDown_eq_scopes t s
  rw [h]

/-- A request adds a task to a queue or leaves the queues as they are. -/
lemma Act.queues (h : Act t u) :
    u.queues = t.queues ∨ ∃ q s work, u.queues = t.queues.push q s work := by
  cases h with
  | enqueue _ s work => exact .inr ⟨_, s, work, rfl⟩
  | removeWatcher w => exact .inl (queues_removeWatcher t w)
  | removeListener l =>
    unfold Tree.removeListener
    split <;> exact .inl rfl
  | queueAsync s work =>
    obtain ⟨deferral, h⟩ := queueAsync_eq t s work
    rw [h]
    exact .inr ⟨.async, s, work, rfl⟩
  | armApply =>
    obtain ⟨deferral, applyFlush, h⟩ := armApply_eq t
    rw [h]
    exact .inl rfl
  | _ => exact .inl rfl

lemma Tick.queues (h : Tick t u) : u.queues = t.queues := by
  rcases h.eq_or_eq with ⟨_, _, rfl⟩ | ⟨_, _, rfl⟩ <;> rfl

lemma Act.queued (h : Act t u) : Queued t u := by
  rcases h.queues with h | ⟨q, s, work, h⟩
  · exact .of_queues h
  · have hnext : u.queues.next = t.queues.next + 1 := congrArg Queues.next h
    exact ⟨(Nat.le_succ _).trans_eq hnext.symm,
      fun heq => absurd (hnext.symm.trans heq) (Nat.succ_ne_self _)⟩

lemma passes_queued : Passes (Queued (κ := κ) (σ := σ)) where
  toAdmits := .of_changes Act.queued (fun _ _ => .of_queues rfl) fun t s =>
    .of_queues (queues_tearDown t s)
  tick h := .of_queues h.queues
  checked := .of_queues rfl
  setKind _ _ := .of_queues rfl
  record h := by
    obtain ⟨_, _, rfl⟩ := eq_of_record h
    exact .of_queues rfl
  dirty := .of_queues rfl
  pass := .of_queues rfl

lemma digests_numbered : Digests (Numbered (κ := κ) (σ := σ)) where
  act h := h.queued.numbered
  beginDestroy h := (passes_queued.beginDestroy h).numbered
  tearDown {t u s} _ hu := hu.trans_eq (congrArg Queues.next (queues_tearDown u s)).symm
  tick h := (congrArg Queues.next h.queues).ge
  checked := Nat.le_refl _
  setKind _ _ := Nat.le_refl _
  record h := (passes_queued.record h).numbered
  dirty := Nat.le_refl _
  pass := Nat.le_refl _
  enter h := by
    obtain rfl := eq_of_enter h
    exact Nat.le_refl _
  leave := Nat.le_refl _
  start {t} := by
    obtain ⟨_, _, h⟩ := cancelApply_eq { t with lastDirty := none }
    rw [Numbered, h]
  dequeue {t u q task} h := by
    obtain ⟨_, rfl⟩ := eq_of_dequeue? h
    cases q <;> exact Nat.le_refl _

end Tree

namespace Engine

variable {E : Engine κ σ} {t u : Tree κ σ} {q : Queue} {n : ℕ}

/-- There is nothing to drain in an empty queue. -/
lemma drainWithin_of_empty {r : Except Error Unit} (hempty : t.queues.tasks q = [])
    (h : runOn (E.drainWithin q n) t = some (r, u)) : r = .ok () ∧ u = t := by
  cases n with
  | zero => cases h
  | succ n =>
    have hnone := (Tree.dequeue?_eq_none_iff t q).2 hempty
    rw [drainWithin, Compute.runOn_bind_of_ok (Compute.runOn_alter?_of_none hnone)] at h
    cases h
    exact ⟨rfl, rfl⟩

end Engine

end DataBinding
