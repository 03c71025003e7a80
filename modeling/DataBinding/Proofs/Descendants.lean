import DataBinding.Proofs.Soundness
import Mathlib.Data.List.Nodup
import Mathlib.Logic.Relation

/-!
# Descendants

A scope and all below it, each parent before its children and in the order in which a walk comes to
them (`Tree.descendants`).  In a sound tree no scope is met twice, since a child is younger than its
parent and the child of no other scope (`Tree.Sound.nodup_descendants`).

A walk is held to a number of levels.  `Tree.Fits` says that the descendants of a scope lie within
that many levels; the number of scopes is always enough (`Tree.Sound.fits`).
-/

namespace DataBinding.Tree

variable {κ σ : Type} {t u : Tree κ σ} {a b c p s : ScopeId} {d : ℕ}

/-- The second scope is the first one or a descendant of it. -/
def Under (t : Tree κ σ) : ScopeId → ScopeId → Prop :=
  Relation.ReflTransGen fun p c => c ∈ (t.scope p).children

/-- The scope and its descendants within so many levels, as a walk comes to them. -/
def descendantsWithin (t : Tree κ σ) : ℕ → ScopeId → List ScopeId
  | 0, _ => []
  | d + 1, s => s :: (t.scope s).children.flatMap (t.descendantsWithin d)

/-- The scope and its descendants, as a walk comes to them.  A child has a higher number than its
parent, so the number of scopes bounds the levels. -/
def descendants (t : Tree κ σ) (s : ScopeId) : List ScopeId := t.descendantsWithin t.scopes.size s

/-- The descendants of a scope lie within so many levels. -/
inductive Fits (t : Tree κ σ) : ℕ → ScopeId → Prop
  | level {d : ℕ} {s : ScopeId} (h : ∀ c ∈ (t.scope s).children, Fits t d c) : Fits t (d + 1) s

lemma under_of_mem_descendantsWithin (h : b ∈ t.descendantsWithin d s) : t.Under s b := by
  induction d generalizing s with
  | zero => cases h
  | succ d ih =>
    rcases List.mem_cons.1 h with rfl | h
    · exact .refl
    · obtain ⟨c, hc, h⟩ := List.mem_flatMap.1 h
      exact .head hc (ih h)

namespace Sound

lemma le_of_under (h : t.Sound) (hab : t.Under a b) : a ≤ b := by
  induction hab with
  | refl => exact le_rfl
  | tail _ hc ih => exact ih.trans (h.child hc).1.le

/-- Of two scopes above a third one is above the other. -/
lemma under_total (h : t.Sound) (ha : t.Under a s) (hb : t.Under b s) :
    t.Under a b ∨ t.Under b a := by
  induction ha with
  | refl => exact .inr hb
  | @tail p s hap hs ih =>
    rcases Relation.ReflTransGen.cases_tail hb with rfl | ⟨q, hbq, hq⟩
    · exact .inl (hap.tail hs)
    · have hpq : some p = some q := (h.child hs).2.2.symm.trans (h.child hq).2.2
      cases hpq
      exact ih hbq

/-- Two scopes with the same parent have no descendant in common. -/
lemma eq_of_under_siblings (h : t.Sound) {p : ScopeId} (hpa : p < a) (hpb : p < b)
    (ha : (t.scope a).parent = some p) (hb : (t.scope b).parent = some p) (has : t.Under a s)
    (hbs : t.Under b s) : a = b := by
  have key : ∀ {a b : ScopeId}, p < a → (t.scope b).parent = some p → t.Under a b → a = b := by
    intro a b hpa hb hab
    rcases Relation.ReflTransGen.cases_tail hab with rfl | ⟨q, haq, hq⟩
    · rfl
    · have hpq : some p = some q := hb.symm.trans (h.child hq).2.2
      cases hpq
      exact absurd (h.le_of_under haq) (not_le.2 hpa)
  rcases h.under_total has hbs with hab | hba
  · exact key hpa hb hab
  · exact (key hpb ha hba).symm

lemma nodup_children (h : t.Sound) (s : ScopeId) : (t.scope s).children.Nodup :=
  (h.children_sorted s).imp fun hlt => ne_of_lt hlt

/-- No scope is met twice on the way down. -/
lemma nodup_descendantsWithin (h : t.Sound) (d : ℕ) (s : ScopeId) :
    (t.descendantsWithin d s).Nodup := by
  induction d generalizing s with
  | zero => exact List.nodup_nil
  | succ d ih =>
    rw [descendantsWithin, List.nodup_cons, List.nodup_flatMap]
    refine ⟨fun hs => ?_, fun c _ => ih c, ?_⟩
    · obtain ⟨c, hc, hs⟩ := List.mem_flatMap.1 hs
      have hle := h.le_of_under (under_of_mem_descendantsWithin hs)
      exact absurd hle (not_le.2 (h.child hc).1)
    · refine (h.nodup_children s).imp_of_mem fun {c c'} hc hc' hne b hb hb' => hne ?_
      obtain ⟨hlt, -, hparent⟩ := h.child hc
      obtain ⟨hlt', -, hparent'⟩ := h.child hc'
      exact h.eq_of_under_siblings hlt hlt' hparent hparent' (under_of_mem_descendantsWithin hb)
        (under_of_mem_descendantsWithin hb')

lemma nodup_descendants (h : t.Sound) (s : ScopeId) : (t.descendants s).Nodup :=
  h.nodup_descendantsWithin _ s

/-- There are no more levels than scopes. -/
lemma fits (h : t.Sound) (hs : s < t.scopes.size) (hd : t.scopes.size ≤ s + d) : t.Fits d s := by
  induction d generalizing s with
  | zero => exact absurd hs (not_lt.2 hd)
  | succ d ih =>
    refine .level fun c hc => ?_
    obtain ⟨hlt, hsize, -⟩ := h.child hc
    exact ih hsize (by omega)

end Sound

/-- What does not go beyond so many levels does not depend on how many more are allowed. -/
lemma Fits.descendantsWithin_eq {d' : ℕ} (hd : t.Fits d s) (hd' : t.Fits d' s) :
    t.descendantsWithin d s = t.descendantsWithin d' s := by
  induction hd generalizing d' with
  | level _ ih =>
    obtain ⟨h'⟩ := hd'
    exact congrArg (_ :: ·) (List.flatMap_congr fun c hc => ih c hc (h' c hc))

namespace Sound

/-- First comes the scope, and then what is below its children. -/
lemma descendants_eq (h : t.Sound) (hs : s < t.scopes.size) :
    t.descendants s = s :: (t.scope s).children.flatMap t.descendants := by
  have hlevels : t.descendantsWithin t.scopes.size s = t.descendantsWithin (t.scopes.size + 1) s :=
    (h.fits hs (Nat.le_add_left _ _)).descendantsWithin_eq (h.fits hs (by omega))
  exact hlevels

/-- What is below a descendant comes in one stretch. -/
lemma descendants_sublist (h : t.Sound) (hs : s < t.scopes.size) (hsb : t.Under s b) :
    (t.descendants b).Sublist (t.descendants s) := by
  induction hsb using Relation.ReflTransGen.head_induction_on with
  | refl => exact .refl _
  | @head s c hc _ ih =>
    have hchild : (t.descendants c).Sublist ((t.scope s).children.flatMap t.descendants) :=
      List.sublist_flatten_of_mem (List.mem_map_of_mem hc)
    rw [h.descendants_eq hs]
    exact ((ih (h.child hc).2.1).trans hchild).cons s

lemma lt_size_of_under (h : t.Sound) (hs : s < t.scopes.size) (hsb : t.Under s b) :
    b < t.scopes.size := by
  rcases Relation.ReflTransGen.cases_tail hsb with rfl | ⟨p, -, hb⟩
  · exact hs
  · exact (h.child hb).2.1

lemma mem_descendants (h : t.Sound) (hs : s < t.scopes.size) :
    b ∈ t.descendants s ↔ t.Under s b := by
  refine ⟨under_of_mem_descendantsWithin, fun hsb => ?_⟩
  refine (h.descendants_sublist hs hsb).subset ?_
  rw [h.descendants_eq (h.lt_size_of_under hs hsb)]
  exact List.mem_cons_self

/-- Every parent comes before its children. -/
lemma parent_before_child (h : t.Sound) (hs : s < t.scopes.size) (hp : t.Under s p)
    (hc : c ∈ (t.scope p).children) : [p, c].Sublist (t.descendants s) := by
  refine List.Sublist.trans ?_ (h.descendants_sublist hs hp)
  have hmem : c ∈ (t.scope p).children.flatMap t.descendants := by
    refine List.mem_flatMap.2 ⟨c, hc, ?_⟩
    exact (h.mem_descendants (h.child hc).2.1).2 .refl
  rw [h.descendants_eq (h.lt_size_of_under hs hp)]
  exact (List.singleton_sublist.2 hmem).cons_cons p

end Sound

end DataBinding.Tree
