import DataBinding.Proofs.Inputs
import DataBinding.Proofs.Twins

/-!
# Constant expressions

A constant expression names nothing of its surroundings, so wherever and whenever it is evaluated it
comes to the same: it always ends, with deep-equal values or with the same error, and it writes to
no container but to those it has made itself (`Expression.constant_concurs`).  A watch that has seen
the value of a constant expression once can stop watching.

This goes for all forms of expressions that are constant, assignments among them: what they assign
to is a member of something that they have made.
-/

namespace DataBinding

open Compute (runOn)

variable {σ : Type}

namespace Expr

variable {lib : Library σ} {stateful : String → Bool} {env env' : Env}

mutual

/-- A constant expression concurs with itself in other surroundings. -/
lemma concur_eval (hE : Env.SameBut lib stateful env env') (access : Access) (s t : Store σ) :
    (e : Expr) → (e.watch stateful).constant = true →
    Concur s.heap t.heap (Twins s.heap t.heap) (eval lib env access e) (eval lib env' access e) s t
  | .literal l, _ => by
    simp only [eval]
    exact .pure (.refl s t) (.of_isAtom (by cases l <;> trivial))
  | .this, hconstant | .locals, hconstant => nomatch hconstant
  | .array items, hconstant => by
    simp only [eval]
    refine (concur_evalList hE s t items hconstant).bind (.refl _) (.refl _) fun hk hvalues => ?_
    exact .bind_of_runs (Store.runOn_making _ _) (Store.runOn_making _ _)
      (.pure (hk.trans ⟨Heap.keeps_newArray _ _, Heap.keeps_newArray _ _⟩) (.newArray hk hvalues))
  | .object properties, hconstant => by
    simp only [eval]
    refine .bind_of_runs (Store.runOn_making _ _) (Store.runOn_making _ _) ?_
    have hgrown : BothKeep s.heap t.heap { s with heap := (s.heap.newObject .empty none).2 }
        { t with heap := (t.heap.newObject .empty none).2 } :=
      ⟨s.heap.keeps_newObject _ _, t.heap.keeps_newObject _ _⟩
    have ho := Heap.owns_newObject s.heap
    have hp := Heap.owns_newObject t.heap
    refine (concur_evalProperties hE hgrown (.newObject s t) ho hp (lt_irrefl _) (lt_irrefl _)
      properties hconstant).bind (.refl _) (.refl _) fun hk hfilling => .pure hk ?_
    exact hfilling.twins ho hp (fun _ => .of_keeps hgrown.left) (fun _ => .of_keeps hgrown.right)
      (lt_irrefl _) (lt_irrefl _)
  | .place p, hconstant => by
    simp only [eval]
    refine (concur_locate hE access s t p hconstant).bind (.refl _) (.refl _) fun hk hloc => ?_
    cases access with
    | read => exact .pure hk hloc.value
    | create => exact Env.SameBut.intermediate hk hloc
  | .call _ _, hconstant => nomatch hconstant
  | .filter name input args, hconstant => by
    simp only [eval]
    cases hname : stateful name with
    | true => simp [watch, hname, Watch.itself] at hconstant
    | false =>
      simp only [watch, hname, Bool.false_eq_true, if_false, Watch.union_cons, Bool.and_eq_true]
        at hconstant
      refine (concur_eval hE .read s t input hconstant.1).bind (.refl _) (.refl _) fun hk hvw => ?_
      refine (concur_evalList hE _ _ args hconstant.2).bind hk.left hk.right fun hk' hargs => ?_
      exact hE.applyFilter (hk.trans hk') hname
        (.cons (hvw.later hk') (hargs.imp fun _ _ h => h.since hk))
  | .assign target value, hconstant => by
    simp only [watch, Watch.itself, Bool.and_eq_true] at hconstant
    simp only [eval]
    refine (concur_locate hE .create s t target hconstant.1).bind (.refl _) (.refl _)
      fun hk hloc => ?_
    refine (concur_eval hE .read _ _ value hconstant.2).bind hk.left hk.right fun hk' hvw => ?_
    exact hE.store hk hloc hk' hvw
  | .unary op operand, hconstant => by
    simp only [eval]
    refine (concur_eval hE .read s t operand hconstant).bind (.refl _) (.refl _) fun hk hvw => ?_
    exact .readingEndless hk (hvw.equal.unary_eq op) (hvw.equal.unary_ne_none op) fun x hx =>
      .of_isAtom (Value.isAtom_of_plain (Heap.isContainer_of_unary hx))
  | .binary op left right, hconstant => by
    simp only [watch, Watch.both, Bool.and_eq_true] at hconstant
    simp only [eval]
    refine (concur_eval hE .read s t left hconstant.1).bind (.refl _) (.refl _) fun hk hvw => ?_
    refine (concur_eval hE .read _ _ right hconstant.2).bind hk.left hk.right fun hk' hvw' => ?_
    have hequal := (hvw.later hk').equal
    refine .readingEndless (hk.trans hk') (hequal.binary_eq op hvw'.equal (hvw.strictEq_eq hvw'))
      (hequal.binary_ne_none op hvw'.equal) fun x hx =>
        .of_isAtom (Value.isAtom_of_plain (Heap.isContainer_of_binary hx))
  | .logical .and left right, hconstant => by
    simp only [watch, Watch.itself, Bool.and_eq_true] at hconstant
    simp only [eval]
    refine (concur_eval hE .read s t left hconstant.1).bind (.refl _) (.refl _) fun hk hvw => ?_
    rw [hvw.equal.truthy_eq]
    split
    · exact (concur_eval hE .read _ _ right hconstant.2).mono hk.left hk.right fun h => h.since hk
    · exact .pure hk hvw
  | .logical .or left right, hconstant => by
    simp only [watch, Watch.itself, Bool.and_eq_true] at hconstant
    simp only [eval]
    refine (concur_eval hE .read s t left hconstant.1).bind (.refl _) (.refl _) fun hk hvw => ?_
    rw [hvw.equal.truthy_eq]
    split
    · exact .pure hk hvw
    · exact (concur_eval hE .read _ _ right hconstant.2).mono hk.left hk.right fun h => h.since hk
  | .conditional test consequent alternate, hconstant => by
    simp only [watch, Watch.itself, Bool.and_eq_true] at hconstant
    simp only [eval]
    refine (concur_eval hE .read s t test hconstant.1.1).bind (.refl _) (.refl _)
      fun hk hvw => ?_
    rw [hvw.equal.truthy_eq]
    split
    · exact (concur_eval hE .read _ _ consequent hconstant.1.2).mono hk.left hk.right
        fun h => h.since hk
    · exact (concur_eval hE .read _ _ alternate hconstant.2).mono hk.left hk.right
        fun h => h.since hk

/-- A place concurs if it is made of constant expressions. -/
lemma concur_locate (hE : Env.SameBut lib stateful env env') (access : Access) (s t : Store σ) :
    (p : Place) → placeConstant stateful p = true →
    Concur s.heap t.heap (Spots s.heap t.heap) (locate lib env access p) (locate lib env' access p)
      s t
  | .name _, hconstant => nomatch hconstant
  | .member base key, hconstant => by
    simp only [locate]
    refine (concur_eval hE access s t base hconstant).bind (.refl _) (.refl _) fun hk hvw => ?_
    exact hE.locateMember hk access hvw key
  | .element base key, hconstant => by
    simp only [placeConstant, Bool.and_eq_true] at hconstant
    simp only [locate]
    refine (concur_eval hE access s t base hconstant.1).bind (.refl _) (.refl _) fun hk hvw => ?_
    refine (concur_eval hE .read _ _ key hconstant.2).bind hk.left hk.right fun hk' hkey => ?_
    refine (Concur.readingEndless (Q := fun s' t' x y => (s' = _ ∧ t' = _) ∧ x = y) (.refl _ _)
      hkey.equal.text?_eq (mt Heap.text?_eq_none_iff.1 hkey.equal.not_loops)
      fun _ _ => ⟨⟨rfl, rfl⟩, rfl⟩).bind (hk.trans hk').left (hk.trans hk').right fun _ htext => ?_
    obtain ⟨⟨rfl, rfl⟩, rfl⟩ := htext
    exact hE.locateMember (hk.trans hk') access (hvw.later hk') _

lemma concur_evalList (hE : Env.SameBut lib stateful env env') (s t : Store σ) :
    (es : List Expr) → (Watch.union (watchList stateful es)).constant = true →
    Concur s.heap t.heap (fun s' t' => List.Forall₂ (Twins s.heap t.heap s' t'))
      (evalList lib env es) (evalList lib env' es) s t
  | [], _ => by
    simp only [evalList]
    exact .pure (.refl s t) .nil
  | e :: rest, hconstant => by
    simp only [watchList, Watch.union_cons, Bool.and_eq_true] at hconstant
    simp only [evalList]
    refine (concur_eval hE .read s t e hconstant.1).bind (.refl _) (.refl _) fun hk hvw => ?_
    refine (concur_evalList hE _ _ rest hconstant.2).bind hk.left hk.right fun hk' hrest => ?_
    exact .pure (hk.trans hk') (.cons (hvw.later hk') (hrest.imp fun _ _ h => h.since hk))

lemma concur_evalProperties (hE : Env.SameBut lib stateful env env') {b c b' c' : Heap}
    {s t : Store σ} {o p : ℕ} (hk : BothKeep b' c' s t) (hfilling : Filling b c o p s t)
    (ho : b.Owns (.object o)) (hp : c.Owns (.object p)) (ho' : ¬ b'.Owns (.object o))
    (hp' : ¬ c'.Owns (.object p)) : (ps : List (PropertyKey × Expr)) →
    (Watch.union (watchProperties stateful ps)).constant = true →
    Concur b' c' (fun s' t' _ _ => Filling b c o p s' t') (evalProperties lib env o ps)
      (evalProperties lib env' p ps) s t
  | [], _ => by
    simp only [evalProperties]
    exact .pure hk hfilling
  | (key, e) :: rest, hconstant => by
    simp only [watchProperties, Watch.union_cons, Bool.and_eq_true] at hconstant
    simp only [evalProperties]
    refine (concur_eval hE .read s t e hconstant.1).bind hk.left hk.right fun hk' hvw => ?_
    have hvw' : Twins b c _ _ _ _ :=
      ⟨hvw.equal, hvw.left.of_later hfilling.left, hvw.right.of_later hfilling.right⟩
    refine .bind_of_runs (Store.runOn_changing _ _) (Store.runOn_changing _ _) ?_
    exact concur_evalProperties hE
      ⟨(hk.trans hk').left.setOwn (Nat.le_of_not_lt ho') _ _,
        (hk.trans hk').right.setOwn (Nat.le_of_not_lt hp') _ _⟩
      ((hfilling.later ho hp hk').setOwn ho hp key.text hvw') ho hp ho' hp' rest hconstant.2

end

/-- Statements concur if each of them is constant. -/
lemma concur_evalStatements (hE : Env.SameBut lib stateful env env') {b c : Heap} {s t : Store σ}
    (hk : BothKeep b c s t) {v w : Value} (hvw : Twins b c s t v w) {es : List Expr}
    (hconstant : ∀ e ∈ es, (e.watch stateful).constant = true) :
    Concur b c (Twins b c) (evalStatements lib env v es) (evalStatements lib env' w es) s t := by
  induction es generalizing s t v w with
  | nil => exact .pure hk hvw
  | cons e es ih =>
    rw [List.forall_mem_cons] at hconstant
    refine (concur_eval hE .read s t e hconstant.1).bind hk.left hk.right fun hk' hvw' => ?_
    exact ih (hk.trans hk') (hvw'.since hk) hconstant.2

end Expr

namespace Expression

variable {lib : Library σ} {e : Expression}

/-- Evaluations of one expression differ in what its names are looked up in only. -/
lemma sameBut_env
    (hfilters : ∀ x ∈ e.filters, x.2.stateful = false → lib.Repeatable x.2.behaviour) (n n' : ℕ)
    (context context' : Value) (locals locals' : Option Value) :
    Env.SameBut lib e.stateful (e.env n context locals) (e.env n' context' locals') := by
  refine ⟨rfl, rfl, fun name behaviour hname hlookup => ?_⟩
  have hmap : ∀ l : List (String × Filter), (l.map fun x => (x.1, x.2.behaviour)).lookup name =
      (l.lookup name).map (·.behaviour) := by
    intro l
    induction l with
    | nil => rfl
    | cons x l ih =>
      rw [List.map_cons, List.lookup_cons, List.lookup_cons, ih]
      cases name == x.1 <;> rfl
  obtain ⟨filter, hfilter, rfl⟩ := Option.map_eq_some_iff.1 ((hmap e.filters).symm.trans hlookup)
  refine hfilters _ (Heap.mem_of_lookup hfilter) ?_
  rwa [stateful, hfilter] at hname

/-- A constant expression comes to the same wherever it is evaluated.  Both evaluations end, with
the same error or with deep-equal values, and neither writes to a container that was there before.
If the second one is made where the first one has been made, the comparison finds the values
equal. -/
theorem constant_concurs (e : Expression) (hconstant : e.isConstant = true) (lib : Library σ)
    (hfilters : ∀ x ∈ e.filters, x.2.stateful = false → lib.Repeatable x.2.behaviour) (n n' : ℕ)
    (context context' : Value) (locals locals' : Option Value) (s t : Store σ) :
    ∃ r s' r' t', runOn (e.eval lib n context locals) s = some (r, s') ∧
      runOn (e.eval lib n' context' locals') t = some (r', t') ∧
      s.heap.Keeps s'.heap ∧ t.heap.Keeps t'.heap ∧
      Agree (fun v w => s'.heap.DeepEqual t'.heap v w ∧
        (s'.heap.Keeps t'.heap → t'.heap.deepEq? v w = some true)) r r' := by
  obtain ⟨r, s', r', t', hrun, hrun', hk, hagree⟩ := Expr.concur_evalStatements
    (sameBut_env hfilters n n' context context' locals locals') (.refl s t)
    (Twins.of_isAtom (v := .undefined) trivial) (List.all_eq_true.1 hconstant)
  refine ⟨r, s', r', t', hrun, hrun', hk.left, hk.right, ?_⟩
  cases hagree with
  | error e => exact .error e
  | @ok v w hvw =>
    refine .ok ⟨hvw.equal, fun hkeeps => Heap.DeepEqual.deepEq?_eq_true ?_⟩
    exact hvw.equal.of_unchanged (hvw.left.complete.unchanged_of_keeps hkeeps)
      (hvw.right.complete.unchanged_of_keeps (.refl _))

/-- A property of an object is assigned, after the object has passed through a filter. -/
def reassigned : Expression where
  source := "({a: true} | given).a = false"
  body := [.assign (.member (.filter "given" (.object [(.name "a", .literal (.bool true))]) []) "a")
    (.literal (.bool false))]
  filters := [("given", ⟨"given", false⟩)]
  oneTime := false

lemma compile_reassigned :
    compile ⟨[("given", ⟨"given", false⟩)]⟩ "({a: true} | given).a = false" false =
      .ok reassigned := by
  cbv

/-- A filter that yields its first argument is repeatable. -/
lemma plainLibrary_repeatable (behaviour : String) : plainLibrary.Repeatable behaviour where
  alike s t args args' _ _ hargs := by
    refine ⟨_, s, _, t, rfl, rfl, .ok ?_⟩
    cases hargs with
    | nil => exact .plain rfl
    | cons hvw _ => exact hvw
  keeps s s' args r _ hrun := by
    cases hrun
    exact .refl _
  returns s s' args v hargs hrun w hw := by
    cases hrun
    cases args with
    | nil =>
      obtain rfl := Heap.eq_of_reaches_of_isAtom (v := .undefined) trivial hw
      exact ⟨trivial, nofun⟩
    | cons x args => exact ⟨hargs x (.head _) w hw, fun _ => ⟨x, .head _, hw⟩⟩

/-- It comes to the same in an object that has the property and without locals, and where there is
nothing but locals. -/
theorem reassigned_concurs :
    compile ⟨[("given", ⟨"given", false⟩)]⟩ "({a: true} | given).a = false" false = .ok reassigned ∧
      reassigned.isConstant = true ∧
      (∀ x ∈ reassigned.filters, x.2.stateful = false → plainLibrary.Repeatable x.2.behaviour) ∧
      ∃ r s' r' t',
        runOn (reassigned.eval plainLibrary 0 (.object 0) none)
          ⟨⟨#[], #[⟨⟨[("a", .null)]⟩, none⟩], #[]⟩, ()⟩ = some (r, s') ∧
        runOn (reassigned.eval plainLibrary 1 .null (some (.string "a"))) ⟨.empty, ()⟩ =
          some (r', t') ∧
        (⟨#[], #[⟨⟨[("a", .null)]⟩, none⟩], #[]⟩ : Heap).Keeps s'.heap ∧ Heap.empty.Keeps t'.heap ∧
        Agree (fun v w => s'.heap.DeepEqual t'.heap v w ∧
          (s'.heap.Keeps t'.heap → t'.heap.deepEq? v w = some true)) r r' := by
  have hconstant : reassigned.isConstant = true := by cbv
  exact ⟨compile_reassigned, hconstant, fun _ _ _ => plainLibrary_repeatable _,
    constant_concurs reassigned hconstant plainLibrary (fun _ _ _ => plainLibrary_repeatable _) 0 1
      (.object 0) .null none (some (.string "a")) ⟨⟨#[], #[⟨⟨[("a", .null)]⟩, none⟩], #[]⟩, ()⟩
      ⟨.empty, ()⟩⟩

end Expression

end DataBinding
