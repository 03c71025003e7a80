import DataBinding.Expression
import DataBinding.Proofs.Numbering
import Mathlib

/-!
# Evaluation of the nodes of a program

Where a node stands for an expression, evaluating the node is evaluating the expression, provided
that the filters are there and the levels suffice, which they do if they are as many as there are
nodes.  So no fault of the nodes is ever met, neither from the root of a program that was compiled
nor from one of its inputs.
-/

namespace DataBinding

open Compute

variable {σ : Type}

namespace Walk

variable {α β : Type}

lemma lift_pure (x : α) : (lift (pure x) : Walk σ α) = pure x := rfl

lemma lift_bind (m : Compute (Store σ) α) (f : α → Compute (Store σ) β) :
    lift (m >>= f) = lift m >>= fun x => lift (f x) := by
  apply ExceptT.ext
  simp [lift]

end Walk

namespace Expr

/-- The filters of these names are there. -/
def Resolved (env : Env) (names : List String) : Prop :=
  ∀ name ∈ names, ∃ behaviour, env.filters.lookup name = some behaviour

namespace Resolved

variable {env : Env} {names names' : List String}

lemma left (h : Resolved env (names ++ names')) : Resolved env names :=
  fun name hname => h name (List.mem_append_left _ hname)

lemma right (h : Resolved env (names ++ names')) : Resolved env names' :=
  fun name hname => h name (List.mem_append_right _ hname)

lemma mono (h : Resolved env names) (hsubset : names' ⊆ names) : Resolved env names' :=
  fun name hname => h name (hsubset hname)

end Resolved

lemma exists_of_mem_union {ws : List (Watch Expr)} {part : Expr}
    (h : part ∈ (Watch.union ws).watched) : ∃ w ∈ ws, part ∈ w.watched := by
  obtain ⟨w, hw, hpart⟩ := List.mem_flatMap.1 h
  refine ⟨w, hw, ?_⟩
  split at hpart
  · cases hpart
  · exact hpart

mutual

/-- The parts that are watched name no other filters. -/
theorem filterNames_subset {stateful : String → Bool} {e part : Expr}
    (h : part ∈ (e.watch stateful).watched) : part.filterNames ⊆ e.filterNames := by
  match e with
  | .literal _ | .this | .locals => cases h
  | .place _ | .call .. | .assign .. | .logical .. | .conditional .. =>
    rw [List.mem_singleton.1 h]
    exact List.Subset.refl _
  | .array items =>
    obtain ⟨w, hw, hpart⟩ := exists_of_mem_union h
    exact filterNames_subset_list hw hpart
  | .object properties =>
    obtain ⟨w, hw, hpart⟩ := exists_of_mem_union h
    exact filterNames_subset_properties hw hpart
  | .filter name input args =>
    rw [watch] at h
    split at h
    · rw [List.mem_singleton.1 h]
      exact List.Subset.refl _
    · obtain ⟨w, hw, hpart⟩ := exists_of_mem_union h
      rw [filterNames]
      refine List.subset_append_of_subset_left _ ?_
      rcases List.mem_cons.1 hw with rfl | hw
      · exact List.subset_append_of_subset_left _ (filterNames_subset hpart)
      · exact List.subset_append_of_subset_right _ (filterNames_subset_list hw hpart)
  | .unary op operand =>
    rw [watch] at h
    rw [filterNames]
    exact filterNames_subset h
  | .binary op left right =>
    rw [filterNames]
    rcases List.mem_append.1 h with h | h
    · exact List.subset_append_of_subset_left _ (filterNames_subset h)
    · exact List.subset_append_of_subset_right _ (filterNames_subset h)
termination_by structural e

theorem filterNames_subset_list {stateful : String → Bool} {es : List Expr} {w : Watch Expr}
    {part : Expr} (hw : w ∈ watchList stateful es) (h : part ∈ w.watched) :
    part.filterNames ⊆ filterNamesList es := by
  match es with
  | [] => cases hw
  | e :: rest =>
    rw [filterNamesList]
    rcases List.mem_cons.1 hw with rfl | hw
    · exact List.subset_append_of_subset_left _ (filterNames_subset h)
    · exact List.subset_append_of_subset_right _ (filterNames_subset_list hw h)
termination_by structural es

theorem filterNames_subset_properties {stateful : String → Bool}
    {ps : List (PropertyKey × Expr)} {w : Watch Expr} {part : Expr}
    (hw : w ∈ watchProperties stateful ps) (h : part ∈ w.watched) :
    part.filterNames ⊆ filterNamesProperties ps := by
  match ps with
  | [] => cases hw
  | (key, e) :: rest =>
    rw [filterNamesProperties]
    rcases List.mem_cons.1 hw with rfl | hw
    · exact List.subset_append_of_subset_left _ (filterNames_subset h)
    · exact List.subset_append_of_subset_right _ (filterNames_subset_properties hw h)
termination_by structural ps

end

variable (lib : Library σ) (env : Env)

/-- The receiver of a call of the expression, and the value that is called. -/
def evalCallee : Expr → Compute (Store σ) (Value × Value)
  | .place p => do
    let loc ← locate lib env .read p
    return (loc.base, loc.value)
  | e => do
    let f ← eval lib env .read e
    return (.undefined, f)

lemma evalCallee_of_ne_place {e : Expr} (he : ∀ p, e ≠ .place p) :
    e.evalCallee lib env = (do
      let f ← eval lib env .read e
      return (.undefined, f)) := by
  cases e with
  | place p => exact absurd rfl (he p)
  | _ => rfl

lemma eval_call (access : Access) (callee : Expr) (args : List Expr) :
    eval lib env access (.call callee args) = (do
      let f ← callee.evalCallee lib env
      env.call lib f.1 f.2 (evalArgs lib env args)) := by
  cases callee <;> simp [eval, evalCallee]

end Expr

namespace Arena

open DataBinding.Expr

variable {a : Arena}

lemma kindAt_eq {id : ℕ} {kind : NodeKind} (h : kind? a.nodes id = some kind) :
    (a.kindAt id : Walk σ NodeKind) = pure kind := by
  obtain ⟨node, hnode, rfl⟩ := Option.map_eq_some_iff.1 h
  rw [kindAt, hnode]

lemma propertyName_eq {id : ℕ} {s : String} (h : kind? a.nodes id = some (.identifier s)) :
    (a.propertyName id : Walk σ String) = pure s := by
  rw [propertyName, kindAt_eq h, pure_bind]

/-- What the node of an expression that is no place is. -/
lemma kind?_of_stands {e : Expr} {id : ℕ} (h : Stands a.nodes e id) (he : ∀ p, e ≠ .place p) :
    ∃ kind, kind? a.nodes id = some kind ∧ (∀ s, kind ≠ .identifier s) ∧
      ∀ base key computed, kind ≠ .member base key computed := by
  match e with
  | .place p => exact absurd rfl (he p)
  | .literal _ | .this | .locals => exact ⟨_, h, by simp, by simp⟩
  | .array _ | .object _ | .unary .. =>
    obtain ⟨_, hkind, -⟩ := h
    exact ⟨_, hkind, by simp, by simp⟩
  | .call .. | .assign .. | .binary .. | .logical .. =>
    obtain ⟨_, _, hkind, -⟩ := h
    exact ⟨_, hkind, by simp, by simp⟩
  | .filter .. | .conditional .. =>
    obtain ⟨_, _, _, hkind, -⟩ := h
    exact ⟨_, hkind, by simp, by simp⟩

lemma kind?_of_standsPlace {p : Place} {id : ℕ} (h : StandsPlace a.nodes p id) :
    (∃ s, kind? a.nodes id = some (.identifier s)) ∨
      ∃ base key computed, kind? a.nodes id = some (.member base key computed) := by
  match p with
  | .name s => exact .inl ⟨s, h⟩
  | .member .. | .element .. =>
    obtain ⟨_, _, hkind, -⟩ := h
    exact .inr ⟨_, _, _, hkind⟩

/-- Every part comes before what it is a part of. -/
def Descends (a : Arena) : Prop :=
  ∀ {id kind}, kind? a.nodes id = some kind → ∀ child ∈ kind.children, child < id

variable (lib : Library σ) (env : Env)

/-- The node does what the expression does, going down so many levels: for its value, in both modes,
and as what is called. -/
structure Follows (a : Arena) (depth : ℕ) (e : Expr) (id : ℕ) : Prop where
  eval : ∀ access, a.evalNode lib env depth access id = Walk.lift (e.eval lib env access)
  callee : a.calleeOf env (a.evalNode lib env depth) id = Walk.lift (e.evalCallee lib env)

variable {lib env}

/-- What is no place is called for its value. -/
lemma Follows.of_eval {e : Expr} {id depth : ℕ} (h : Stands a.nodes e id) (he : ∀ p, e ≠ .place p)
    (heval : ∀ access, a.evalNode lib env depth access id = Walk.lift (e.eval lib env access)) :
    Follows lib env a depth e id := by
  obtain ⟨kind, hkind, hname, hmember⟩ := kind?_of_stands h he
  refine ⟨heval, ?_⟩
  rw [calleeOf, kindAt_eq hkind, pure_bind, evalCallee_of_ne_place lib env he, Walk.lift_bind,
    ← heval]
  cases kind with
  | identifier s => exact absurd rfl (hname s)
  | member base key computed => exact absurd rfl (hmember base key computed)
  | _ => rfl

/-- A place is its location. -/
lemma Follows.of_locate {p : Place} {id depth : ℕ} (h : StandsPlace a.nodes p id) (hid : id < depth)
    (hlocate : ∀ depth, id ≤ depth → ∀ access,
      a.locateNode env (a.evalNode lib env depth) access id = Walk.lift (locate lib env access p)) :
    Follows lib env a depth (.place p) id := by
  obtain ⟨kind, hkind, hplace⟩ : ∃ kind, kind? a.nodes id = some kind ∧
      ((∃ s, kind = .identifier s) ∨ ∃ base key computed, kind = .member base key computed) := by
    rcases kind?_of_standsPlace h with ⟨s, hkind⟩ | ⟨base, key, computed, hkind⟩
    · exact ⟨_, hkind, .inl ⟨s, rfl⟩⟩
    · exact ⟨_, hkind, .inr ⟨base, key, computed, rfl⟩⟩
  obtain ⟨depth, rfl⟩ : ∃ n, depth = n + 1 := ⟨depth - 1, by omega⟩
  refine ⟨fun access => ?_, ?_⟩
  · rw [evalNode, kindAt_eq hkind, pure_bind, Expr.eval, Walk.lift_bind,
      ← hlocate depth (Nat.le_of_lt_succ hid)]
    obtain ⟨s, rfl⟩ | ⟨base, key, computed, rfl⟩ := hplace
    all_goals
      refine bind_congr fun loc => ?_
      cases access <;> rfl
  · rw [calleeOf, kindAt_eq hkind, pure_bind, evalCallee, Walk.lift_bind,
      ← hlocate (depth + 1) (Nat.le_of_lt hid)]
    obtain ⟨s, rfl⟩ | ⟨base, key, computed, rfl⟩ := hplace
    all_goals rfl

/-! ### One construct at a time -/

section Constructs

-- The equations of both evaluations are made here, once for all of the constructs.
attribute [local simp] evalNode Expr.eval

variable {id i j k depth : ℕ} {ids : List ℕ} (access : Access)

lemma evalNode_array {items : List Expr} (hkind : kind? a.nodes id = some (.array ids))
    (hitems : evalNodes (a.evalNode lib env depth) ids = Walk.lift (evalList lib env items)) :
    a.evalNode lib env (depth + 1) access id =
      Walk.lift (Expr.eval lib env access (.array items)) := by
  rw [evalNode, kindAt_eq hkind, pure_bind, Expr.eval]
  dsimp only
  rw [hitems]
  simp only [Walk.lift_bind, Walk.lift_pure]

lemma evalNode_object {properties : List (PropertyKey × Expr)}
    (hkind : kind? a.nodes id = some (.object ids))
    (hproperties : ∀ o, a.writeProperties (a.evalNode lib env depth) o ids =
      Walk.lift (evalProperties lib env o properties)) :
    a.evalNode lib env (depth + 1) access id =
      Walk.lift (Expr.eval lib env access (.object properties)) := by
  rw [evalNode, kindAt_eq hkind, pure_bind, Expr.eval]
  simp only [Walk.lift_bind, Walk.lift_pure, hproperties]

lemma evalNode_call {callee : Expr} {args : List Expr}
    (hkind : kind? a.nodes id = some (.call i ids false))
    (hcallee : Follows lib env a depth callee i)
    (hargs : guardedNodes env (a.evalNode lib env depth) ids =
      Walk.lift (evalArgs lib env args)) :
    a.evalNode lib env (depth + 1) access id =
      Walk.lift (Expr.eval lib env access (.call callee args)) := by
  rw [evalNode, kindAt_eq hkind, pure_bind, eval_call]
  dsimp only
  rw [hcallee.callee, hargs, Walk.lift_bind]
  refine bind_congr fun f => ?_
  rw [Env.call]
  cases f.2.isNullish with
  | true => rfl
  | false =>
    simp only [Bool.false_eq_true, if_false, Walk.lift_bind]
    refine bind_congr fun _ => bind_congr fun _ => bind_congr fun values => ?_
    cases f.2 <;> simp only [Walk.lift_bind, Walk.lift_pure]

lemma evalNode_filter {name : String} {input : Expr} {args : List Expr}
    (hkind : kind? a.nodes id = some (.call i (j :: ids) true))
    (hname : kind? a.nodes i = some (.identifier name)) (hresolved : Resolved env [name])
    (hinput : Follows lib env a depth input j)
    (hargs : evalNodes (a.evalNode lib env depth) ids = Walk.lift (evalList lib env args)) :
    a.evalNode lib env (depth + 1) access id =
      Walk.lift (Expr.eval lib env access (.filter name input args)) := by
  obtain ⟨behaviour, hbehaviour⟩ := hresolved name (.head _)
  rw [evalNode, kindAt_eq hkind, pure_bind, Expr.eval]
  dsimp only
  rw [propertyName_eq hname, pure_bind, hbehaviour]
  dsimp only
  rw [evalNodes, hinput.eval, hargs]
  simp only [Walk.lift_bind, bind_assoc, pure_bind, Env.applyFilter, hbehaviour]

lemma evalNode_assign {target : Place} {value : Expr}
    (hkind : kind? a.nodes id = some (.assignment i j))
    (htarget : a.locateNode env (a.evalNode lib env depth) .create i =
      Walk.lift (locate lib env .create target))
    (hvalue : Follows lib env a depth value j) :
    a.evalNode lib env (depth + 1) access id =
      Walk.lift (Expr.eval lib env access (.assign target value)) := by
  rw [evalNode, kindAt_eq hkind, pure_bind, Expr.eval]
  dsimp only
  rw [htarget, hvalue.eval]
  simp only [Walk.lift_bind]

lemma evalNode_unary {op : UnaryOp} {operand : Expr}
    (hkind : kind? a.nodes id = some (.unary op i))
    (hoperand : Follows lib env a depth operand i) :
    a.evalNode lib env (depth + 1) access id =
      Walk.lift (Expr.eval lib env access (.unary op operand)) := by
  rw [evalNode, kindAt_eq hkind, pure_bind, Expr.eval]
  dsimp only
  rw [hoperand.eval]
  simp only [Walk.lift_bind]

lemma evalNode_binary {op : BinaryOp} {left right : Expr}
    (hkind : kind? a.nodes id = some (.binary op i j)) (hleft : Follows lib env a depth left i)
    (hright : Follows lib env a depth right j) :
    a.evalNode lib env (depth + 1) access id =
      Walk.lift (Expr.eval lib env access (.binary op left right)) := by
  rw [evalNode, kindAt_eq hkind, pure_bind, Expr.eval]
  dsimp only
  rw [hleft.eval, hright.eval]
  simp only [Walk.lift_bind]

lemma evalNode_logical {op : LogicalOp} {left right : Expr}
    (hkind : kind? a.nodes id = some (.logical op i j)) (hleft : Follows lib env a depth left i)
    (hright : Follows lib env a depth right j) :
    a.evalNode lib env (depth + 1) access id =
      Walk.lift (Expr.eval lib env access (.logical op left right)) := by
  rw [evalNode, kindAt_eq hkind, pure_bind]
  dsimp only
  rw [hleft.eval, hright.eval]
  cases op
  all_goals
    rw [Expr.eval, Walk.lift_bind]
    refine bind_congr fun v => ?_
    cases v.truthy <;> rfl

lemma evalNode_conditional {test consequent alternate : Expr}
    (hkind : kind? a.nodes id = some (.conditional i j k))
    (htest : Follows lib env a depth test i) (hconsequent : Follows lib env a depth consequent j)
    (halternate : Follows lib env a depth alternate k) :
    a.evalNode lib env (depth + 1) access id =
      Walk.lift (Expr.eval lib env access (.conditional test consequent alternate)) := by
  rw [evalNode, kindAt_eq hkind, pure_bind, Expr.eval]
  dsimp only
  rw [htest.eval, hconsequent.eval, halternate.eval, Walk.lift_bind]
  refine bind_congr fun v => ?_
  cases v.truthy <;> rfl

end Constructs

/-! ### Every expression -/

variable (lib env)

mutual

/-- A node that stands for an expression follows it, if the levels reach from its number down. -/
theorem follows_of_stands (hdescends : a.Descends) {e : Expr} {id depth : ℕ} (hid : id < depth)
    (hfilters : Resolved env e.filterNames) (he : Stands a.nodes e id) :
    Follows lib env a depth e id := by
  obtain ⟨depth, rfl⟩ : ∃ n, depth = n + 1 := ⟨depth - 1, by omega⟩
  have hparts : ∀ {kind}, kind? a.nodes id = some kind → ∀ child ∈ kind.children, child < depth :=
    fun hkind child hchild =>
      Nat.lt_of_lt_of_le (hdescends hkind child hchild) (Nat.le_of_lt_succ hid)
  match e with
  | .place p =>
    exact .of_locate he hid fun depth hdepth access =>
      locateNode_eq access hdescends hdepth hfilters he
  | .literal l =>
    refine .of_eval he (by simp) fun access => ?_
    rw [evalNode, kindAt_eq he, pure_bind, Expr.eval, Walk.lift_pure]
  | .this | .locals =>
    refine .of_eval he (by simp) fun access => ?_
    rw [evalNode, kindAt_eq he, pure_bind, Expr.eval, Walk.lift_pure]
  | .array items =>
    refine .of_eval he (by simp) fun access => ?_
    obtain ⟨ids, hkind, hitems⟩ := he
    exact evalNode_array access hkind (evalNodes_eq hdescends (hparts hkind) hfilters hitems)
  | .object properties =>
    refine .of_eval he (by simp) fun access => ?_
    obtain ⟨ids, hkind, hproperties⟩ := he
    exact evalNode_object access hkind fun o =>
      writeProperties_eq o hdescends (hparts hkind) hfilters hproperties
  | .call callee args =>
    refine .of_eval he (by simp) fun access => ?_
    obtain ⟨i, ids, hkind, hcallee, hargs⟩ := he
    rw [filterNames] at hfilters
    obtain ⟨hi, hids⟩ := List.forall_mem_cons.1 (hparts hkind)
    exact evalNode_call access hkind (follows_of_stands hdescends hi hfilters.left hcallee)
      (guardedNodes_eq hdescends hids hfilters.right hargs)
  | .filter name input args =>
    refine .of_eval he (by simp) fun access => ?_
    obtain ⟨callee, i, ids, hkind, hcallee, hinput, hargs⟩ := he
    rw [filterNames] at hfilters
    obtain ⟨hi, hids⟩ := List.forall_mem_cons.1 (List.forall_mem_cons.1 (hparts hkind)).2
    exact evalNode_filter access hkind hcallee hfilters.right
      (follows_of_stands hdescends hi hfilters.left.left hinput)
      (evalNodes_eq hdescends hids hfilters.left.right hargs)
  | .assign target value =>
    refine .of_eval he (by simp) fun access => ?_
    obtain ⟨i, j, hkind, htarget, hvalue⟩ := he
    rw [filterNames] at hfilters
    have hi := hparts hkind i (by simp [NodeKind.children])
    have hj := hparts hkind j (by simp [NodeKind.children])
    exact evalNode_assign access hkind
      (locateNode_eq .create hdescends (Nat.le_of_lt hi) hfilters.left htarget)
      (follows_of_stands hdescends hj hfilters.right hvalue)
  | .unary op operand =>
    refine .of_eval he (by simp) fun access => ?_
    obtain ⟨i, hkind, hoperand⟩ := he
    rw [filterNames] at hfilters
    have hi := hparts hkind i (by simp [NodeKind.children])
    exact evalNode_unary access hkind (follows_of_stands hdescends hi hfilters hoperand)
  | .binary op left right =>
    refine .of_eval he (by simp) fun access => ?_
    obtain ⟨i, j, hkind, hleft, hright⟩ := he
    rw [filterNames] at hfilters
    have hi := hparts hkind i (by simp [NodeKind.children])
    have hj := hparts hkind j (by simp [NodeKind.children])
    exact evalNode_binary access hkind (follows_of_stands hdescends hi hfilters.left hleft)
      (follows_of_stands hdescends hj hfilters.right hright)
  | .logical op left right =>
    refine .of_eval he (by simp) fun access => ?_
    obtain ⟨i, j, hkind, hleft, hright⟩ := he
    rw [filterNames] at hfilters
    have hi := hparts hkind i (by simp [NodeKind.children])
    have hj := hparts hkind j (by simp [NodeKind.children])
    exact evalNode_logical access hkind (follows_of_stands hdescends hi hfilters.left hleft)
      (follows_of_stands hdescends hj hfilters.right hright)
  | .conditional test consequent alternate =>
    refine .of_eval he (by simp) fun access => ?_
    obtain ⟨i, j, k, hkind, htest, hconsequent, halternate⟩ := he
    rw [filterNames] at hfilters
    have hi := hparts hkind i (by simp [NodeKind.children])
    have hj := hparts hkind j (by simp [NodeKind.children])
    have hk := hparts hkind k (by simp [NodeKind.children])
    exact evalNode_conditional access hkind
      (follows_of_stands hdescends hi hfilters.left.left htest)
      (follows_of_stands hdescends hj hfilters.left.right hconsequent)
      (follows_of_stands hdescends hk hfilters.right halternate)
termination_by structural e

theorem locateNode_eq (access : Access) (hdescends : a.Descends) {p : Place} {id depth : ℕ}
    (hid : id ≤ depth) (hfilters : Resolved env (placeFilterNames p))
    (hp : StandsPlace a.nodes p id) :
    a.locateNode env (a.evalNode lib env depth) access id =
      Walk.lift (locate lib env access p) := by
  match p with
  | .name s => rw [locateNode, kindAt_eq hp, pure_bind, locate]
  | .member base key =>
    obtain ⟨i, j, hkind, hbase, hkey⟩ := hp
    have hi : i < depth := Nat.lt_of_lt_of_le (hdescends hkind i (by simp [NodeKind.children])) hid
    rw [locateNode, kindAt_eq hkind, pure_bind, locate]
    dsimp only
    rw [(follows_of_stands hdescends hi hfilters hbase).eval, propertyName_eq hkey]
    simp only [Walk.lift_bind]
    rfl
  | .element base key =>
    obtain ⟨i, j, hkind, hbase, hkey⟩ := hp
    rw [placeFilterNames] at hfilters
    have hi : i < depth := Nat.lt_of_lt_of_le (hdescends hkind i (by simp [NodeKind.children])) hid
    have hj : j < depth := Nat.lt_of_lt_of_le (hdescends hkind j (by simp [NodeKind.children])) hid
    rw [locateNode, kindAt_eq hkind, pure_bind, locate]
    dsimp only
    rw [(follows_of_stands hdescends hi hfilters.left hbase).eval,
      (follows_of_stands hdescends hj hfilters.right hkey).eval]
    simp only [Walk.lift_bind, if_true]
termination_by structural p

theorem evalNodes_eq (hdescends : a.Descends) {es : List Expr} {ids : List ℕ} {depth : ℕ}
    (hids : ∀ id ∈ ids, id < depth) (hfilters : Resolved env (filterNamesList es))
    (hes : StandAll a.nodes es ids) :
    evalNodes (a.evalNode lib env depth) ids = Walk.lift (evalList lib env es) := by
  match es with
  | [] =>
    obtain rfl : ids = [] := hes
    rw [evalNodes, evalList, Walk.lift_pure]
  | e :: rest =>
    obtain ⟨id, ids', rfl, he, hrest⟩ := hes
    obtain ⟨hid, hids⟩ := List.forall_mem_cons.1 hids
    rw [filterNamesList] at hfilters
    rw [evalNodes, evalList, (follows_of_stands hdescends hid hfilters.left he).eval,
      evalNodes_eq hdescends hids hfilters.right hrest]
    simp only [Walk.lift_bind, Walk.lift_pure]
termination_by structural es

theorem guardedNodes_eq (hdescends : a.Descends) {es : List Expr} {ids : List ℕ} {depth : ℕ}
    (hids : ∀ id ∈ ids, id < depth) (hfilters : Resolved env (filterNamesList es))
    (hes : StandAll a.nodes es ids) :
    guardedNodes env (a.evalNode lib env depth) ids = Walk.lift (evalArgs lib env es) := by
  match es with
  | [] =>
    obtain rfl : ids = [] := hes
    rw [guardedNodes, evalArgs, Walk.lift_pure]
  | e :: rest =>
    obtain ⟨id, ids', rfl, he, hrest⟩ := hes
    obtain ⟨hid, hids⟩ := List.forall_mem_cons.1 hids
    rw [filterNamesList] at hfilters
    rw [guardedNodes, evalArgs, (follows_of_stands hdescends hid hfilters.left he).eval,
      guardedNodes_eq hdescends hids hfilters.right hrest]
    simp only [Walk.lift_bind, Walk.lift_pure]
termination_by structural es

theorem writeProperties_eq (o : ℕ) (hdescends : a.Descends) {ps : List (PropertyKey × Expr)}
    {ids : List ℕ} {depth : ℕ} (hids : ∀ id ∈ ids, id < depth)
    (hfilters : Resolved env (filterNamesProperties ps)) (hps : StandAsProperties a.nodes ps ids) :
    a.writeProperties (a.evalNode lib env depth) o ids =
      Walk.lift (evalProperties lib env o ps) := by
  match ps with
  | [] =>
    obtain rfl : ids = [] := hps
    rw [writeProperties, evalProperties, Walk.lift_pure]
  | (key, e) :: rest =>
    obtain ⟨id, value, ids', rfl, hkind, he, hrest⟩ := hps
    obtain ⟨hid, hids⟩ := List.forall_mem_cons.1 hids
    have hvalue : value < depth := Nat.lt_trans (hdescends hkind value (.head _)) hid
    rw [filterNamesProperties] at hfilters
    rw [writeProperties, kindAt_eq hkind, pure_bind, evalProperties]
    dsimp only
    rw [(follows_of_stands hdescends hvalue hfilters.left he).eval,
      writeProperties_eq o hdescends hids hfilters.right hrest]
    simp only [Walk.lift_bind]
termination_by structural ps

end

lemma evalBody_eq (hdescends : a.Descends) {es : List Expr} {ids : List ℕ} {depth : ℕ}
    (hids : ∀ id ∈ ids, id < depth) (hfilters : Resolved env (filterNamesList es))
    (hes : StandAll a.nodes es ids) (last : Value) :
    evalBody (a.evalNode lib env depth) last ids = Walk.lift (evalStatements lib env last es) := by
  induction es generalizing ids last with
  | nil =>
    obtain rfl : ids = [] := hes
    rw [evalBody, evalStatements, Walk.lift_pure]
  | cons e rest ih =>
    obtain ⟨id, ids', rfl, he, hrest⟩ := hes
    obtain ⟨hid, hids⟩ := List.forall_mem_cons.1 hids
    rw [filterNamesList] at hfilters
    rw [evalBody, evalStatements, (follows_of_stands lib env hdescends hid hfilters.left he).eval,
      Walk.lift_bind]
    exact bind_congr fun v => ih hids hfilters.right hrest v

end Arena

/-! ## Compiled programs -/

namespace Expression

/-- The arena of a compiled expression. -/
def arena (e : Expression) : Arena := .ofProgram e.stateful e.body

/-- The expression has all the filters that it names. -/
def Complete (e : Expression) : Prop :=
  ∀ name ∈ Expr.filterNamesList e.body, ∃ filter, (name, filter) ∈ e.filters

variable {e : Expression} {registry : Record Filter}

lemma exists_mem_of_resolve {names : List String} {filters : List (String × Filter)}
    (h : resolve registry names = .ok filters) :
    ∀ name ∈ names, ∃ filter, (name, filter) ∈ filters := by
  induction names generalizing filters with
  | nil => exact fun name hname => nomatch hname
  | cons first rest ih =>
    rw [resolve] at h
    split at h
    · next filter _ =>
      cases hrest : resolve registry rest with
      | error fault =>
        rw [hrest] at h
        cases h
      | ok others =>
        rw [hrest] at h
        cases h
        intro name hname
        rcases List.mem_cons.1 hname with rfl | hmem
        · exact ⟨filter, .head _⟩
        · obtain ⟨other, hother⟩ := ih hrest name hmem
          exact ⟨other, .tail _ hother⟩
    · cases h

private lemma exists_of_bind_eq_ok {ε α β : Type} {x : Except ε α} {f : α → Except ε β} {b : β}
    (h : x >>= f = .ok b) : ∃ a, x = .ok a ∧ f a = .ok b := by
  cases x with
  | error e => cases h
  | ok a => exact ⟨a, rfl, h⟩

lemma complete_of_compile {source : String} {oneTime : Bool}
    (h : compile registry source oneTime = .ok e) : e.Complete := by
  obtain ⟨tokens, -, h⟩ := exists_of_bind_eq_ok h
  obtain ⟨body, -, h⟩ := exists_of_bind_eq_ok h
  obtain ⟨filters, hfilters, h⟩ := exists_of_bind_eq_ok h
  cases h
  exact fun name hname => exists_mem_of_resolve hfilters name (List.mem_eraseDups.2 hname)

lemma Complete.resolved (h : e.Complete) (callLimit : ℕ) (context : Value) (locals : Option Value) :
    Expr.Resolved (e.env callLimit context locals) (Expr.filterNamesList e.body) := by
  intro name hname
  obtain ⟨filter, hfilter⟩ := h name hname
  refine Option.isSome_iff_exists.1 (List.lookup_isSome_iff.2 ⟨(name, filter.behaviour), ?_, ?_⟩)
  · exact List.mem_map.2 ⟨(name, filter), hfilter, rfl⟩
  · exact beq_self_eq_true name

lemma arena_descends (e : Expression) : e.arena.Descends :=
  (Arena.wellFormed_ofProgram e.stateful e.body).children_lt

/-- To evaluate the root is to evaluate the program. -/
lemma evalNode_root (h : e.Complete) (lib : Library σ) (callLimit : ℕ) (context : Value)
    (locals : Option Value) {depth : ℕ} (hdepth : e.arena.nodes.size ≤ depth) :
    e.arena.evalNode lib (e.env callLimit context locals) depth .read e.arena.root =
      Walk.lift (e.eval lib callLimit context locals) := by
  have hlast : e.arena.nodes.size = e.arena.root + 1 :=
    (Arena.wellFormed_ofProgram e.stateful e.body).root_last
  have hroot : e.arena.root < depth := by omega
  obtain ⟨depth, rfl⟩ : ∃ n, depth = n + 1 := ⟨depth - 1, by omega⟩
  obtain ⟨parts, nodes, w, hparts, hnodes⟩ := Arena.exists_numberedAll e.stateful e.body
  have hkind : Arena.kind? e.arena.nodes e.arena.root = some (.program (parts.map (·.1))) := by
    rw [arena, Arena.root_ofProgram hnodes, hnodes, Arena.kind?_push_size]
  have hstand : Arena.StandAll e.arena.nodes e.body (parts.map (·.1)) := by
    rw [arena, hnodes]
    exact (Arena.Extends.push _ _).standAll hparts.stand
  have hparts : ∀ id ∈ parts.map (·.1), id < depth := fun id hid =>
    Nat.lt_of_lt_of_le (e.arena_descends hkind id hid) (Nat.le_of_lt_succ hroot)
  rw [Arena.evalNode, Arena.kindAt_eq hkind, pure_bind]
  exact Arena.evalBody_eq lib _ e.arena_descends hparts (h.resolved callLimit context locals) hstand
    .undefined

/-- The inputs of the arena are those of the expression. -/
lemma inputs_stand (e : Expression) :
    List.Forall₂ (fun id part => Arena.Stands e.arena.nodes part id) e.arena.inputs e.inputs := by
  obtain ⟨parts, nodes, w, hparts, hnodes⟩ := Arena.exists_numberedAll e.stateful e.body
  have hbody : e.arena.body = parts.map (·.1) := by
    rw [arena, Arena.body, Arena.root_ofProgram hnodes, hnodes, Array.getElem?_push_size]
  have hnode : ∀ part ∈ parts, ∃ kind, e.arena.nodes[part.1]? = some ⟨kind, part.2⟩ := by
    intro part hpart
    obtain ⟨kind, hkind⟩ := hparts.node part hpart
    rw [arena, hnodes]
    exact ⟨kind, Arena.Extends.push _ _ _ _ hkind⟩
  have hwatch : List.Forall₂ (Arena.Watches e.arena.nodes) (parts.map (·.2))
      (Expr.watchList e.stateful e.body) := by
    rw [arena, hnodes]
    exact hparts.watch.imp fun _ _ hw => hw.extend (.push _ _)
  have hitself := hparts.itself
  rw [Arena.inputs, hbody, inputs, statement?]
  clear hparts hbody hnodes
  generalize e.body = es at hwatch hitself ⊢
  -- only a program of one statement has inputs
  cases hitself with
  | nil => exact .nil
  | @cons part s _ _ hfirst hrest =>
    cases hrest with
    | cons _ _ => exact .nil
    | nil =>
      obtain ⟨kind, hkind⟩ := hnode part (.head _)
      have hwatches : Arena.Watches e.arena.nodes part.2 (s.watch e.stateful) :=
        (List.forall₂_cons.1 hwatch).1
      simp only [List.map_cons, List.map_nil, hkind, Expr.inputs]
      by_cases hwatched : part.2.watched = [part.1]
      · rw [if_pos hwatched, if_pos (hfirst.1 hwatched)]
        exact .nil
      · rw [if_neg hwatched, if_neg (fun h => hwatched (hfirst.2 h))]
        exact hwatches.watched

lemma filterNames_subset_of_mem_inputs {part : Expr} (h : part ∈ e.inputs) :
    part.filterNames ⊆ Expr.filterNamesList e.body := by
  rw [inputs, statement?] at h
  generalize e.body = es at h ⊢
  match es with
  | [] | _ :: _ :: _ => cases h
  | [s] =>
    have hpart : part ∈ (s.watch e.stateful).watched := by
      change part ∈ s.inputs e.stateful at h
      rw [Expr.inputs] at h
      split at h
      · cases h
      · exact h
    rw [Expr.filterNamesList]
    exact List.subset_append_of_subset_left _ (Expr.filterNames_subset hpart)

/-- To evaluate the inputs of the arena is to evaluate those of the expression. -/
lemma evalNode_inputs (h : e.Complete) (lib : Library σ) (callLimit : ℕ) (context : Value)
    (locals : Option Value) {depth : ℕ} (hdepth : e.arena.nodes.size ≤ depth) :
    List.Forall₂ (fun id part =>
        e.arena.evalNode lib (e.env callLimit context locals) depth .read id =
          Walk.lift (e.evalPart part lib callLimit context locals))
      e.arena.inputs e.inputs := by
  have hparts : ∀ {ids parts}, parts ⊆ e.inputs →
      List.Forall₂ (fun id part => Arena.Stands e.arena.nodes part id) ids parts →
      List.Forall₂ (fun id part =>
        e.arena.evalNode lib (e.env callLimit context locals) depth .read id =
          Walk.lift (e.evalPart part lib callLimit context locals)) ids parts := by
    intro ids parts hsubset hstand
    induction hstand with
    | nil => exact .nil
    | cons hfirst _ ih =>
      obtain ⟨hpart, hrest⟩ := List.cons_subset.1 hsubset
      have hresolved := (h.resolved callLimit context locals).mono
        (filterNames_subset_of_mem_inputs hpart)
      have hid := Nat.lt_of_lt_of_le (Arena.lt_size_of_stands hfirst) hdepth
      have hfollows := Arena.follows_of_stands lib _ e.arena_descends hid hresolved hfirst
      exact .cons (hfollows.eval .read) (ih hrest)
  exact hparts (List.Subset.refl _) e.inputs_stand

end Expression

/-- The evaluation meets no fault of the nodes, from whatever store. -/
def Walk.Faultless {α : Type} (m : Walk σ α) : Prop :=
  ∀ s f s', runOn m.run s ≠ some (.ok (.error f), s')

lemma Walk.faultless_lift {α : Type} (m : Compute (Store σ) α) : (Walk.lift m).Faultless := by
  intro s f s' h
  have hrun : runOn (Walk.lift m).run s =
      (runOn m s).map fun (r, t) => (r.map Except.ok, t) := by
    change runOn (Except.ok <$> m) s = _
    rw [map_eq_pure_bind, runOn_bind]
    cases hm : runOn m s with
    | none => rfl
    | some end_ =>
      obtain ⟨r, t⟩ := end_
      cases r <;> rfl
  rw [hrun] at h
  obtain ⟨⟨r, t⟩, -, heq⟩ := Option.map_eq_some_iff.1 h
  cases r <;> cases heq

namespace Compiler

/-- A compiler with some filters, after any number of requests. -/
inductive Reached : Compiler → Prop where
  | start (registry : Record Filter) : Reached ⟨registry, .empty⟩
  | parse {c : Compiler} (hc : Reached c) (source : String) : Reached (c.parse source).2
  | register {c : Compiler} (hc : Reached c) (name : String) (filter : Filter) :
    Reached (c.register name filter)
  | clear {c : Compiler} (hc : Reached c) : Reached c.clear

/-- The expressions in the cache have all their filters. -/
def Complete (c : Compiler) : Prop := ∀ key e, c.cache.get? key = some e → e.Complete

/-- What is parsed has all its filters, and so has what is cached then. -/
lemma Complete.parse {c : Compiler} (hc : c.Complete) (source : String) :
    (∀ e, (c.parse source).1 = .ok e → e.Complete) ∧ (c.parse source).2.Complete := by
  unfold Compiler.parse
  split
  · next e hcached =>
    exact ⟨fun e' he => Except.ok.inj he ▸ hc _ e hcached, hc⟩
  · dsimp only
    split
    · next e hcompile =>
      have he := Expression.complete_of_compile hcompile
      refine ⟨fun e' he' => Except.ok.inj he' ▸ he, fun other e' hother => ?_⟩
      by_cases hkey : other = key source
      · subst hkey
        rw [Record.get?_set_self] at hother
        exact Option.some.inj hother ▸ he
      · rw [Record.get?_set_of_ne _ hkey] at hother
        exact hc other e' hother
    · exact ⟨(fun e' he' => nomatch he'), hc⟩

lemma Reached.complete {c : Compiler} (hc : c.Reached) : c.Complete := by
  induction hc with
  | start registry => exact fun key e h => nomatch h
  | parse _ source ih => exact (ih.parse source).2
  | register _ name filter ih => exact ih
  | clear _ _ => exact fun key e h => nomatch h

/-- The arena of whatever is parsed is well formed, and to evaluate its root or its inputs by number
is to evaluate the program or the parts that it is determined by: no fault of the nodes is ever
met. -/
theorem parse_arena_faultless {c : Compiler} {source : String} {e : Expression} (hc : c.Reached)
    (he : (c.parse source).1 = .ok e) :
    e.arena.WellFormed ∧
      ∀ {σ : Type} (lib : Library σ) (callLimit : ℕ) (context : Value) (locals : Option Value)
        (depth : ℕ), e.arena.nodes.size ≤ depth →
        let evalNode := e.arena.evalNode lib (e.env callLimit context locals) depth .read
        evalNode e.arena.root = Walk.lift (e.eval lib callLimit context locals) ∧
        List.Forall₂ (fun id part =>
            evalNode id = Walk.lift (e.evalPart part lib callLimit context locals))
          e.arena.inputs e.inputs ∧
        (evalNode e.arena.root).Faultless ∧ ∀ id ∈ e.arena.inputs, (evalNode id).Faultless := by
  have hcomplete := (hc.complete.parse source).1 e he
  refine ⟨Arena.wellFormed_ofProgram _ _, fun lib callLimit context locals depth hdepth => ?_⟩
  have hroot := Expression.evalNode_root hcomplete lib callLimit context locals hdepth
  have hinputs := Expression.evalNode_inputs hcomplete lib callLimit context locals hdepth
  refine ⟨hroot, hinputs, ?_, ?_⟩
  · rw [hroot]
    exact Walk.faultless_lift _
  · have hfaultless : List.Forall₂ (fun id part =>
        (e.arena.evalNode lib (e.env callLimit context locals) depth .read id).Faultless ∧
          part = part)
        e.arena.inputs e.inputs :=
      hinputs.imp fun id part hid => ⟨hid ▸ Walk.faultless_lift _, rfl⟩
    exact ((List.forall₂_and_left _ _).1 hfaultless).1

/-- An object with a literal key, piped through a filter. -/
def keyed : Expression where
  source := "\x7b'k': o.a\x7d | given"
  body := [.filter "given" (.object [(.literal (.string "k"),
    .place (.member (.place (.name "o")) "a"))]) []]
  filters := [("given", ⟨"given", false⟩)]
  oneTime := false

/-- What is not cached is compiled, without its marks. -/
lemma parse_of_not_cached {c : Compiler} {source text : String} {oneTime : Bool}
    (hcache : c.cache.get? (key source) = none)
    (hmarks : withoutMarks (key source) = (text, oneTime)) :
    (c.parse source).1 = Expression.compile c.registry text oneTime := by
  rw [parse, hcache, hmarks]
  dsimp only
  cases Expression.compile c.registry text oneTime <;> rfl

lemma parse_keyed : ((⟨⟨[("given", ⟨"given", false⟩)]⟩, .empty⟩ : Compiler).parse
    " \x7b'k': o.a\x7d | given ").1 = .ok keyed := by
  have hmarks : withoutMarks (key " \x7b'k': o.a\x7d | given ") =
      ("\x7b'k': o.a\x7d | given", false) := by
    decide
  have hcompile : Expression.compile ⟨[("given", ⟨"given", false⟩)]⟩ "\x7b'k': o.a\x7d | given"
      false = .ok keyed := by
    cbv
  exact (parse_of_not_cached (Record.get?_empty _) hmarks).trans hcompile

theorem keyed_arena :
    keyed.arena.inputs = [3] ∧ keyed.arena.WellFormed ∧
      let lib : Library Unit :=
        ⟨fun _ _ _ => pure .undefined, fun _ args => pure (.array args.length)⟩
      let evalNode := keyed.arena.evalNode lib (keyed.env 0 (.object 0) none)
        keyed.arena.nodes.size .read
      (evalNode keyed.arena.root).Faultless ∧
        ∀ id ∈ keyed.arena.inputs, (evalNode id).Faultless := by
  have hparsed := parse_arena_faultless (.start _) parse_keyed
  exact ⟨by cbv, hparsed.1, (hparsed.2 _ 0 (.object 0) none _ (Nat.le_refl _)).2.2⟩

end Compiler

end DataBinding
