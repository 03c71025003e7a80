import DataBinding.Engine.Watching
import DataBinding.Proofs.Yields

/-!
# Inputs run where the expression does

The inputs of an expression are evaluated in its place, one after another and before it.  That
would be a source of errors of its own if one of them could fail while the expression has a value.

It cannot.  What is watched of an expression are parts that are evaluated on the way to its value,
whatever the values of other parts are (`Expr.Reads.exists_run_of_mem_watched`): of a choice it is
the choice and not its branches.  By then the evaluation has made containers of its own, so the part
is not evaluated in the store in which it is an input.  But it runs alike in any two stores that
have the containers of a heap as they are (`Expr.Reads.mirrors`), if the filters are deterministic.

So a watch through inputs raises an error only where a plain watch raises one
(`Engine.inputs_watch_ok`).  It need not be the same error: the inputs are evaluated before the
filters that stand between them.
-/

namespace DataBinding

open Compute (Leads runOn)

variable {κ σ α β : Type}

/-- In all stores that have the containers of the heap as they are, the filter does the same to
arguments that stand for each other, and it leaves these containers as they are.  Arguments from the
heap stand for themselves; others are told apart by their contents only. -/
def Library.Deterministic (lib : Library σ) (b : Heap) (behaviour : String) : Prop :=
  lib.RunsAlike b b (.only b.Has) behaviour

/-- Two heaps that have the containers of a third one correspond in these. -/
lemma Heap.Closed.corresponds {b h k : Heap} (hb : b.Closed) (hh : b.Keeps h) (hk : b.Keeps k) :
    (Renaming.only b.Has).Corresponds h k := by
  refine Renaming.corresponds_only (fun v hv => ?_) fun v w hv hvw => ?_
  · exact (hh.sameAt hv).trans_left (hk.sameAt hv)
  · exact hb.has_of_refers hv ((hh.sameAt hv).refers hvw)

/-! ## Running alike -/

namespace Expr

variable {stateful : String → Bool} {lib : Library σ} {env : Env} {b : Heap} {s s' t : Store σ}
  {e p : Expr} {v : Value}
    (hlib : ∀ name behaviour, env.filters.lookup name = some behaviour →
    lib.Deterministic b behaviour)
  (hcontext : b.Has env.context) (hlocals : ∀ locals ∈ env.locals, b.Has locals)
include hlib hcontext hlocals

/-- An expression that reads runs alike in stores that have the containers of the heap. -/
lemma Reads.mirrors (he : e.Reads) :
    Mirrors b b (.only b.Has) Renaming.Matches (e.eval lib env .read) (e.eval lib env .read) := by
  have hcontext' : (Renaming.only b.Has).Matches env.context env.context :=
    Renaming.matches_only hcontext
  refine mirrors_eval rfl rfl hlib (fun e he => ?_) he
  rcases he with ⟨name, rfl⟩ | rfl | rfl
  · refine mirrors_name rfl hcontext' ?_ name
    cases hl : env.locals with
    | none => exact .none
    | some locals => exact .some (Renaming.matches_only (hlocals _ hl))
  · simp only [eval]
    exact .pure fun _ hle => hcontext'.mono hle
  · simp only [eval]
    refine .pure fun _ hle => Renaming.Matches.mono ?_ hle
    cases hl : env.locals with
    | none => exact .plain rfl
    | some locals => exact Renaming.matches_only (hlocals _ hl)

lemma Reads.spares_of_deterministic (hb : b.Closed) (he : e.Reads) :
    Leads (Store.Spares b) (e.eval lib env .read) := by
  intro s r t hrun hs
  obtain ⟨ρ, r', t', -, hrelates, -⟩ := he.mirrors hlib hcontext hlocals le_rfl
    ⟨hb.corresponds hs hs, hs, hs⟩ hrun
  exact hrelates.left

/-- Where it has a value in one of these stores, it has one in all of them. -/
lemma Reads.ok_of_run (hb : b.Closed) (he : e.Reads) (hs : b.Keeps s.heap) (hs' : b.Keeps s'.heap)
    (hrun : runOn (e.eval lib env .read) s = some (.ok v, t)) :
    ∃ x u, runOn (e.eval lib env .read) s' = some (.ok x, u) ∧ b.Keeps u.heap := by
  obtain ⟨ρ, r', u, -, hrelates, hrun', hagree⟩ := he.mirrors hlib hcontext hlocals le_rfl
    ⟨hb.corresponds hs hs', hs, hs'⟩ hrun
  cases hagree with
  | ok _ => exact ⟨_, u, hrun', hrelates.right⟩

/-- Where an expression that reads has a value, what is watched of it has one. -/
lemma Reads.ok_of_mem_watched (hb : b.Closed) (he : e.Reads) (hp : p ∈ (e.watch stateful).watched)
    (hs : b.Keeps s.heap) (hrun : runOn (e.eval lib env .read) s = some (.ok v, t))
    (hs' : b.Keeps s'.heap) :
    ∃ x u, runOn (p.eval lib env .read) s' = some (.ok x, u) ∧ b.Keeps u.heap := by
  obtain ⟨s₁, t₁, x, hs₁, hrun₁⟩ := he.exists_run_of_mem_watched
    (fun _ he => he.spares_of_deterministic hlib hcontext hlocals hb) hp hs hrun
  exact (he.of_mem_watched hp).ok_of_run hlib hcontext hlocals hb hs₁ hs' hrun₁

end Expr

/-! ## Watching -/

/-- If each step of a sequence succeeds wherever the property holds, and preserves it, so does the
sequence. -/
lemma Compute.exists_run_mapM {τ : Type} {f : α → Compute τ β} {l : List α} {P : τ → Prop}
    (hf : ∀ a ∈ l, ∀ x, P x → ∃ b y, runOn (f a) x = some (.ok b, y) ∧ P y) {x : τ} (hx : P x) :
    ∃ bs y, runOn (l.mapM f) x = some (.ok bs, y) ∧ P y := by
  induction l generalizing x with
  | nil => exact ⟨[], x, rfl, hx⟩
  | cons a l ih =>
    obtain ⟨b, y, hb, hy⟩ := hf a (.head _) x hx
    obtain ⟨bs, z, hbs, hz⟩ := ih (fun a ha => hf a (.tail _ ha)) hy
    refine ⟨b :: bs, z, ?_, hz⟩
    rw [List.mapM_cons, runOn_bind_of_ok hb, runOn_bind_of_ok hbs]
    rfl

namespace Engine

variable {E : Engine κ σ} {t : Tree κ σ} {s : ScopeId} {e : Expression}

/-- The scope has its data still, and the store the containers that it had. -/
def Kept (t : Tree κ σ) (s : ScopeId) (u : Tree κ σ) : Prop :=
  u.data s = t.data s ∧ t.store.heap.Keeps u.store.heap

/-- An evaluation in the store of a tree, if it succeeds. -/
lemma exists_run_onStore {m : Compute (Store σ) α} {u : Tree κ σ}
    (hm : ∃ x store, runOn m u.store = some (.ok x, store) ∧ t.store.heap.Keeps store.heap)
    (hu : Kept t s u) :
    ∃ x u', runOn (Routine.onStore m) u = some (.ok x, u') ∧ Kept t s u' := by
  obtain ⟨x, store, hrun, hkeeps⟩ := hm
  refine ⟨x, { u with store }, ?_, hu.1, hkeeps⟩
  rw [Routine.onStore, Compute.runOn_within, hrun]
  rfl

/-- Where an expression that reads has a value, its inputs have values; and a watch of the inputs
observes something without an error where a watch of the expression itself would. -/
theorem inputs_watch_ok (hinputs : e.inputs ≠ []) (hreads : ∀ s ∈ e.body, s.Reads)
    (hclosed : t.store.heap.Closed)
    (hfilters : ∀ filter ∈ e.filters,
      E.library.Deterministic t.store.heap filter.2.behaviour) :
    (∀ n context locals, t.store.heap.Has context → (∀ x ∈ locals, t.store.heap.Has x) →
      ∀ v u, runOn (e.eval E.library n context locals) t.store = some (.ok v, u) →
        ∀ part ∈ e.inputs, ∃ x u',
          runOn (e.evalPart part E.library n context locals) t.store = some (.ok x, u')) ∧
    ∀ s w listener, t.store.heap.Has (.object (t.data s)) →
      ∀ v u, runOn (E.observe s w (.expression e listener)) t = some (.ok v, u) →
        ∀ memo, ∃ x u', runOn (E.observe s w (.inputs e listener memo)) t = some (.ok x, u') := by
  obtain ⟨body, hbody, hwatched⟩ := Expression.exists_of_inputs hinputs
  have hread : body.Reads := hreads body (hbody ▸ .head _)
  have hlib (n : ℕ) (context : Value) (locals : Option Value) (name behaviour : String)
      (hlookup : (e.env n context locals).filters.lookup name = some behaviour) :
      E.library.Deterministic t.store.heap behaviour := by
    obtain ⟨filter, hfilter, rfl⟩ := Expression.exists_of_lookup hlookup
    exact hfilters filter hfilter
  refine ⟨fun n context locals hcontext hlocals v u hrun part hpart => ?_,
    fun s w listener hdata v u hrun memo => ?_⟩
  · rw [Expression.eval_eq_of_body hbody] at hrun
    rw [hwatched] at hpart
    obtain ⟨x, u', hx, -⟩ := hread.ok_of_mem_watched (hlib n context locals) hcontext hlocals
      hclosed hpart (.refl _) hrun (.refl _)
    exact ⟨x, u', hx⟩
  · change runOn (E.evaluate s e none) t = some (.ok v, u) at hrun
    rw [runOn_evaluate_of_body hbody] at hrun
    obtain ⟨⟨r, store⟩, hbodyrun, hend⟩ := Option.map_eq_some_iff.1 hrun
    cases hend
    have hnolocals : ∀ x ∈ (none : Option Value), t.store.heap.Has x := nofun
    -- The inputs succeed, each in the store that the one before it leaves.
    obtain ⟨inputs, y, hy, hkept⟩ : ∃ inputs y,
        runOn (E.evaluateInputs s e) t = some (.ok inputs, y) ∧ Kept t s y := by
      rw [evaluateInputs, Compute.runOn_read_bind]
      refine Compute.exists_run_mapM (fun part hpart y hy => ?_) ⟨rfl, .refl _⟩
      rw [hwatched] at hpart
      exact exists_run_onStore (hread.ok_of_mem_watched (hlib _ _ none) hdata hnolocals hclosed
        hpart (.refl _) hbodyrun hy.2) hy
    rw [observe, observeInputs, Compute.runOn_bind_of_ok hy]
    split
    · next memo' _ => exact ⟨memo'.result, y, rfl⟩
    · obtain ⟨x, store', hx, -⟩ := hread.ok_of_run (hlib E.limit _ none) hdata hnolocals hclosed
        (.refl _) hkept.2 hbodyrun
      have hevaluate : runOn (E.evaluate s e none) y =
          some (.ok x, { y with store := store' }) := by
        rw [runOn_evaluate_of_body hbody, hkept.1, hx]
        rfl
      rw [Compute.runOn_bind_of_ok hevaluate, Compute.runOn_change_bind]
      exact ⟨x, _, rfl⟩

/-! ### Watching a gathering -/

/-- An engine whose procedures do nothing. -/
def idle : Engine Unit Unit where
  library := plainLibrary
  report _ host := host
  invoke _ _ := pure .undefined
  limit := 0

/-- A tree with the store in which the gathering is evaluated. -/
def outsetTree : Tree Unit Unit where
  store := Expression.outset
  compiler := ⟨.empty, .empty⟩
  config := {}
  scopes := #[{ data := 0, parent := none, isolated := false }]
  deferral := { timed := false }

lemma outset_closed : Expression.outset.heap.Closed := by
  intro v w hw
  cases v with
  | object o =>
    match o with
    | 0 =>
      obtain rfl := List.mem_singleton.1 hw
      exact Nat.one_lt_two
    | 1 => cases hw
    | _ + 2 => cases hw
  | array a => cases hw
  | _ => cases hw

/-- The watch of the paths that are gathered observes the array, as the watch of the gathering
does. -/
theorem gathering_inputs_watch_ok :
    Expression.gathering.inputs ≠ [] ∧ (∀ s ∈ Expression.gathering.body, s.Reads) ∧
      outsetTree.store.heap.Closed ∧
      (∀ filter ∈ Expression.gathering.filters,
        idle.library.Deterministic outsetTree.store.heap filter.2.behaviour) ∧
      (∀ part ∈ Expression.gathering.inputs, ∃ x u,
        runOn (Expression.gathering.evalPart part plainLibrary 0 (.object 0) none)
          Expression.outset = some (.ok x, u)) ∧
      ∀ memo, ∃ x u, runOn (idle.observe rootId 0 (.inputs Expression.gathering () memo))
        outsetTree = some (.ok x, u) := by
  have hinputs : Expression.gathering.inputs ≠ [] := nofun
  have hfilters : ∀ filter ∈ Expression.gathering.filters,
      idle.library.Deterministic outsetTree.store.heap filter.2.behaviour :=
    fun filter _ => (plainLibrary_contentual filter.2.behaviour).runsAlike _ _ _
  have hdata : outsetTree.store.heap.Has (.object 0) := Nat.two_pos
  have hlocals : ∀ x ∈ (none : Option Value), outsetTree.store.heap.Has x := nofun
  obtain ⟨hparts, hwatch⟩ := inputs_watch_ok (t := outsetTree) hinputs
    Expression.gathering_reads outset_closed hfilters
  obtain ⟨u, hrun⟩ : ∃ u, runOn (Expression.gathering.eval plainLibrary 0 (.object 0) none)
      Expression.outset = some (.ok (.array 0), u) := by
    generalize hx : runOn _ _ = x
    cbv at hx
    subst hx
    exact ⟨_, rfl⟩
  have hobserve : runOn (idle.observe rootId 0 (.expression Expression.gathering ())) outsetTree =
      some (.ok (.array 0), { outsetTree with store := u }) := by
    change runOn (idle.evaluate rootId Expression.gathering none) outsetTree = _
    rw [evaluate, Compute.runOn_read_bind, Routine.onStore, Compute.runOn_within]
    exact congrArg (Option.map _) hrun
  exact ⟨hinputs, Expression.gathering_reads, outset_closed, hfilters,
    hparts 0 (.object 0) none hdata hlocals _ u hrun,
    hwatch rootId 0 () hdata _ _ hobserve⟩

end Engine

end DataBinding
