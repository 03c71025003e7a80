import DataBinding.Engine
import DataBinding.Proofs.Formation

/-!
# Container literals

A container literal is a composed literal of an array or an object, such as `[a, {k: b.c}]`.  As
long as the data stay as they are, it yields fresh values of one frozen form, and its inputs have
the very same values (`Engine.exists_yields`).
-/

namespace DataBinding

open Compute (runOn)

variable {κ σ : Type}

/-- The expression is a literal of an array or an object, composed of literals, of names and their
members, and of operators. -/
structure Expression.IsContainerLiteral (e : Expression) : Prop where
  statement : ∃ s, e.body = [s] ∧ s.Composed ∧
    ((∃ items, s = .array items) ∨ ∃ properties, s = .object properties)
  filters : e.filters = []

namespace Expression.IsContainerLiteral

variable {e : Expression}

lemma isLiteral (he : e.IsContainerLiteral) : e.isLiteral = true := by
  obtain ⟨s, hbody, -, ⟨_, rfl⟩ | ⟨_, rfl⟩⟩ := he.statement <;>
    simp [Expression.isLiteral, Expression.statement?, hbody, Expr.isLiteral]

lemma inputs_eq (he : e.IsContainerLiteral) :
    ∃ s, e.body = [s] ∧ s.Composed ∧ e.inputs = (s.watch e.stateful).watched ∧
      e.isConstant = (s.watch e.stateful).constant := by
  obtain ⟨s, hbody, hs, hliteral⟩ := he.statement
  refine ⟨s, hbody, hs, ?_, ?_⟩
  · rcases hliteral with ⟨_, rfl⟩ | ⟨_, rfl⟩ <;>
      simp [Expression.inputs, Expression.statement?, hbody, Expr.inputs, Expr.watchesItself]
  · simp [Expression.isConstant, hbody, Expr.isConstant]

/-- What is not constant has inputs. -/
lemma inputs_ne_nil (he : e.IsContainerLiteral) (hconstant : e.isConstant = false) :
    e.inputs ≠ [] := by
  obtain ⟨s, -, hs, hinputs, hsame⟩ := he.inputs_eq
  rw [hsame] at hconstant
  obtain ⟨p, hp⟩ := hs.exists_mem_watched hconstant
  rw [hinputs]
  exact List.ne_nil_of_mem hp

end Expression.IsContainerLiteral

namespace Engine

/-- In all trees that keep the heap of `t`, the expression has a fresh value with the frozen form
`f`, and its inputs have the values `inputs`. -/
structure Yields (E : Engine κ σ) (t : Tree κ σ) (s : ScopeId) (e : Expression) (f : Frozen)
    (inputs : List Value) : Prop where
  value : ∀ {u : Tree κ σ}, u.data s = t.data s → t.store.heap.Keeps u.store.heap →
    ∃ v store, runOn (E.evaluate s e none) u = some (.ok v, { u with store }) ∧
      u.store.heap.Keeps store.heap ∧ store.heap.freeze? v = some f ∧
      store.heap.agrees f v = true ∧ store.heap.Has v ∧ ¬ u.store.heap.Has v
  parts : ∀ {u : Tree κ σ}, u.data s = t.data s → t.store.heap.Keeps u.store.heap →
    runOn (E.evaluateInputs s e) u = some (.ok inputs, u)

variable {E : Engine κ σ} {t u : Tree κ σ} {s : ScopeId} {e : Expression}

lemma runOn_evaluate_of_body {body : Expr} (hbody : e.body = [body]) (u : Tree κ σ) :
    runOn (E.evaluate s e none) u =
      (runOn (body.eval E.library (e.env E.limit (.object (u.data s)) none) .read) u.store).map
        fun (r, store) => (r, { u with store }) := by
  rw [evaluate, Compute.runOn_read_bind, Expression.eval_eq_of_body hbody]
  rfl

lemma exists_mapM_of_forall {α β τ : Type} {f : α → Compute τ β} {l : List α} {P : τ → Prop}
    (hf : ∀ a ∈ l, ∃ b, ∀ x, P x → runOn (f a) x = some (.ok b, x)) :
    ∃ bs, ∀ x, P x → runOn (l.mapM f) x = some (.ok bs, x) := by
  induction l with
  | nil => exact ⟨[], fun _ _ => rfl⟩
  | cons a l ih =>
    obtain ⟨b, hb⟩ := hf a (.head _)
    obtain ⟨bs, hbs⟩ := ih fun a ha => hf a (.tail _ ha)
    refine ⟨b :: bs, fun x hx => ?_⟩
    rw [List.mapM_cons, Compute.runOn_bind_of_ok (hb x hx), Compute.runOn_bind_of_ok (hbs x hx)]
    rfl

/-- A literal that has a value over regular data yields its like ever after. -/
theorem exists_yields (he : e.IsContainerLiteral)
    (hdata : t.store.heap.Regular (.object (t.data s))) {v : Value}
    (hrun : runOn (E.evaluate s e none) t = some (.ok v, u)) :
    ∃ f inputs, E.Yields t s e f inputs := by
  obtain ⟨body, hbody, hcomposed, hliteral⟩ := he.statement
  have hfilters : (e.env E.limit (.object (t.data s)) none).filters = [] := by
    rw [Expression.env, he.filters]
    rfl
  have hlocals : (e.env E.limit (.object (t.data s)) none).locals = none := rfl
  rw [runOn_evaluate_of_body hbody] at hrun
  obtain ⟨⟨r, store⟩, hbodyrun, hend⟩ := Option.map_eq_some_iff.1 hrun
  cases hend
  have hkept := Heap.Keeps.refl t.store.heap
  obtain ⟨f, hf, -⟩ := (hcomposed.formed hfilters hlocals hdata hkept hbodyrun).exists_freeze?
  obtain ⟨inputs, hinputs⟩ : ∃ inputs, ∀ u : Tree κ σ,
      u.data s = t.data s ∧ t.store.heap.Keeps u.store.heap →
        runOn (E.evaluateInputs s e) u = some (.ok inputs, u) := by
    obtain ⟨body', hbody', -, hwatched, -⟩ := he.inputs_eq
    cases hbody.symm.trans hbody'
    have hparts : ∀ p ∈ e.inputs, ∃ x, ∀ store : Store σ, t.store.heap.Keeps store.heap →
        runOn (e.evalPart p E.library E.limit (.object (t.data s)) none) store =
          some (.ok x, store) := by
      intro p hp
      rw [hwatched] at hp
      exact hcomposed.ok_of_mem_watched hfilters hlocals hdata hp hkept hbodyrun
    have hmapM := exists_mapM_of_forall
      (f := fun p => Routine.onStore (κ := κ)
        (e.evalPart p E.library E.limit (.object (t.data s)) none))
      (P := fun u : Tree κ σ => t.store.heap.Keeps u.store.heap) fun p hp => by
        obtain ⟨x, hx⟩ := hparts p hp
        refine ⟨x, fun u hu => ?_⟩
        rw [Routine.onStore, Compute.runOn_within, hx u.store hu]
        rfl
    obtain ⟨inputs, hinputs⟩ := hmapM
    refine ⟨inputs, fun u hu => ?_⟩
    rw [evaluateInputs, Compute.runOn_read_bind, hu.1]
    exact hinputs u hu.2
  refine ⟨f, inputs, fun {u} hu hkeeps => ?_, fun hu hkeeps => hinputs _ ⟨hu, hkeeps⟩⟩
  obtain ⟨v', store', hrun', hgrown, hsame⟩ :=
    hcomposed.again hfilters hlocals hdata.complete hkept hkeeps hbodyrun
  have hformed := hcomposed.formed hfilters hlocals hdata hkeeps hrun'
  have hfresh := hcomposed.not_has hfilters hlocals hdata hliteral hkeeps hrun'
  obtain ⟨f', hf', hagrees⟩ := hformed.exists_freeze?
  obtain rfl : f' = f := Option.some.inj (hf'.symm.trans (hsame.trans hf))
  refine ⟨v', store', ?_, hgrown, hf', hagrees, hformed.has, hfresh⟩
  rw [runOn_evaluate_of_body hbody, hu, hrun']
  rfl

end Engine

end DataBinding
