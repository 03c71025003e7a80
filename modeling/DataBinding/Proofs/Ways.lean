import Mathlib.Data.List.Perm.Subperm
import Mathlib.Logic.Relation
import Mathlib.Order.Nat

/-!
# Ways along a relation

How deep one can go along a relation.  `Way R goal n x` is a way of `n` steps from `x` that comes to
a goal.  If all that steps lead away from is among finitely many things, a way that is longer than
their number comes to one of them twice, so it goes round (`Way.loops`); and what goes round has
ways of every length (`Loops.way`).
-/

namespace DataBinding

open Relation (ReflTransGen TransGen)

variable {α : Type} {R : α → α → Prop} {goal : α → Prop} {x y : α} {n : ℕ}

/-- There is a way of so many steps that comes to a goal. -/
inductive Way (R : α → α → Prop) (goal : α → Prop) : ℕ → α → Prop
  | here {x : α} (hx : goal x) : Way R goal 0 x
  | step {n : ℕ} {x y : α} (hxy : R x y) (hrest : Way R goal n y) : Way R goal (n + 1) x

/-- Something can be reached that can be reached from itself again. -/
def Loops (R : α → α → Prop) (x : α) : Prop := ∃ y, ReflTransGen R x y ∧ TransGen R y y

/-- The first step of a way that goes round. -/
lemma Loops.step (h : Loops R x) : ∃ y, R x y ∧ Loops R y := by
  obtain ⟨y, hreach, hloop⟩ := h
  rcases hreach.cases_head with rfl | ⟨z, hz, hreach⟩
  · obtain ⟨z, hz, hreach⟩ := TransGen.head'_iff.1 hloop
    exact ⟨z, hz, _, hreach, hloop⟩
  · exact ⟨z, hz, y, hreach, hloop⟩

/-- Where steps come to an end one cannot go round. -/
lemma not_loops_of_acc (h : Acc (flip R) x) : ¬ Loops R x := by
  induction h with
  | intro x _ ih =>
    intro hx
    obtain ⟨y, hxy, hy⟩ := hx.step
    exact ih y hxy hy

namespace Way

lemma succ_iff : Way R goal (n + 1) x ↔ ∃ y, R x y ∧ Way R goal n y := by
  constructor
  · intro hway
    cases hway with
    | step hxy hrest => exact ⟨_, hxy, hrest⟩
  · rintro ⟨y, hxy, hrest⟩
    exact .step hxy hrest

/-- A way comes to things each of which leads to all later ones. -/
lemma exists_chain {all : List α} (hall : ∀ x y, R x y → x ∈ all) (hway : Way R goal n x) :
    ∃ chain : List α, chain.length = n ∧ chain.Pairwise (TransGen R) ∧
      ∀ y ∈ chain, y ∈ all ∧ ReflTransGen R x y := by
  induction hway with
  | here => exact ⟨[], rfl, .nil, fun _ hx => nomatch hx⟩
  | @step n x y hxy _ ih =>
    obtain ⟨chain, rfl, hchain, hmem⟩ := ih
    refine ⟨x :: chain, rfl, .cons (fun z hz => .head' hxy (hmem z hz).2) hchain, ?_⟩
    intro z hz
    rcases List.mem_cons.1 hz with rfl | hz
    · exact ⟨hall z y hxy, .refl⟩
    · exact ⟨(hmem z hz).1, .head hxy (hmem z hz).2⟩

/-- A way that is longer than there are things to come to goes round. -/
theorem loops {all : List α} (hall : ∀ x y, R x y → x ∈ all) (hway : Way R goal n x)
    (hlt : all.length < n) : Loops R x := by
  obtain ⟨chain, rfl, hchain, hmem⟩ := hway.exists_chain hall
  by_contra hno
  have hnodup : chain.Nodup := by
    refine hchain.imp_of_mem ?_
    rintro y _ hy - hyy rfl
    exact hno ⟨y, (hmem y hy).2, hyy⟩
  have hle := (hnodup.subperm fun y hy => (hmem y hy).1).length_le
  omega

lemma of_reaches (hreach : ReflTransGen R x y) (hway : Way R goal n y) :
    ∃ m, n ≤ m ∧ Way R goal m x := by
  induction hreach using Relation.ReflTransGen.head_induction_on with
  | refl => exact ⟨n, le_rfl, hway⟩
  | head hstep _ ih =>
    obtain ⟨m, hle, hm⟩ := ih
    exact ⟨m + 1, Nat.le_succ_of_le hle, .step hstep hm⟩

/-- If steps lead away from goals only, less of a way is a way. -/
lemma of_le (hgoal : ∀ x y, R x y → goal x) {m : ℕ} (hm : Way R goal m x) (hle : n ≤ m) :
    Way R goal n x := by
  induction hm generalizing n with
  | here hx => exact Nat.le_zero.1 hle ▸ .here hx
  | @step m x y hxy _ ih =>
    cases n with
    | zero => exact .here (hgoal x y hxy)
    | succ n => exact .step hxy (ih (Nat.le_of_succ_le_succ hle))

end Way

/-- Where one can go round there are ways of every length. -/
theorem Loops.way (hgoal : ∀ x y, R x y → goal x) (h : Loops R x) (n : ℕ) : Way R goal n x := by
  obtain ⟨y, hreach, hloop⟩ := h
  obtain ⟨z, hyz, hzy⟩ := Relation.TransGen.head'_iff.1 hloop
  -- the way goes round, and each time it comes to be longer
  have hround : ∃ m, n ≤ m ∧ Way R goal m y := by
    induction n with
    | zero => exact ⟨0, le_rfl, .here (hgoal y z hyz)⟩
    | succ n ih =>
      obtain ⟨m, hle, hm⟩ := ih
      obtain ⟨k, hmk, hk⟩ := Way.of_reaches hzy hm
      exact ⟨k + 1, by omega, .step hyz hk⟩
  obtain ⟨m, hle, hm⟩ := hround
  obtain ⟨k, hmk, hk⟩ := Way.of_reaches hreach hm
  exact hk.of_le hgoal (hle.trans hmk)

end DataBinding
