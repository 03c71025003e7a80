import DataBinding.Proofs.Effects

/-!
# What is known when something happens

What the evaluation of an expression comes to in one store it comes to in every store that is
related by a relation which evaluation respects (`Expression.Meets.of_respected`).  In passing one
learns what has gone before each effect: a call has been prepared, its callee found and its operands
evaluated behind the guards, and what is written is no forbidden member, unless it is a property of
an object that has been made since (`Effect.Due`).
-/

namespace DataBinding

open Compute (After Ends Follows)

variable {σ α : Type}

/-! ## Runs in related stores -/

namespace Compute

variable {τ : Type} {S : τ → τ → Prop} {m m' : ℕ → Compute τ α} {s s' : τ}

/-- What ends in a store ends in the same way in one that is related. -/
lemma Ends.of_follows (hm : ∀ n, Follows S (m n) (m' n)) (hs : S s s') {r : Except Error α} {t : τ}
    (h : Ends m s r t) : ∃ t', Ends m' s' r t' ∧ S t t' := by
  obtain ⟨n, hrun⟩ := h
  obtain ⟨t', hrun', ht⟩ := hm n hs hrun
  exact ⟨t', ⟨n, hrun'⟩, ht⟩

lemma After.of_follows {later later' : α → τ → Prop} (hm : ∀ n, Follows S (m n) (m' n))
    (hs : S s s') (h : After m s later)
    (hlater : ∀ a t t', Ends m s (.ok a) t → S t t' → later a t → later' a t') :
    After m' s' later' := by
  obtain ⟨a, t, hends, hrest⟩ := h
  obtain ⟨t', hends', ht⟩ := hends.of_follows hm hs
  exact ⟨a, t', hends', hlater a t t' hends ht hrest⟩

end Compute

/-! ## Calls -/

/-- The callee yields the function and its receiver. -/
def Expr.Finds (lib : Library σ) (env : Env) (s : Store σ) (this : Value) (f : Callable)
    (t : Store σ) : Expr → Prop
  | .place p => ∃ key, Ends (locateAt lib env .read p) s (.ok ⟨this, key, .function f⟩) t
  | e => this = .undefined ∧ Ends (evalAt lib env .read e) s (.ok (.function f)) t

/-- What has gone before a call: the callee was found, the function and the receiver have passed the
guards, and the operands have been evaluated. -/
structure FunctionCall.Prepared (lib : Library σ) (env : Env) (c : FunctionCall σ) (w : Store σ) :
    Prop where
  callee : ∃ s, c.callee.Finds lib env s c.this c.function c.found
  receiver : c.found.heap.forbidden? c.this = none
  callable : (Value.function c.function).uncallable? = none
  operands : Ends (Expr.evalArgsAt lib env c.operands) c.found (.ok c.args) w

/-! ## Effects in related stores -/

namespace Effect

/-- The effects are the same, but for the store in which a callee was found. -/
def Matches (S : Store σ → Store σ → Prop) : Effect σ → Effect σ → Prop
  | .call c, ev' => ∃ found, S c.found found ∧ ev' = .call { c with found }
  | ev, ev' => ev' = ev

/-- What is known when something happens: a call has been prepared, a member that is written is a
permitted one, and a property of a literal is written to an object that has been made since. -/
def Due (lib : Library σ) (env : Env) (S : Store σ → Store σ → Prop) :
    Effect σ → Store σ → Prop
  | .call c, w => c.Prepared lib env w
  | .write _ key _, _ => key ∉ forbiddenMembers
  | .property o _ _, _ => ∃ s s', S s s' ∧ s.heap.objects.size = o
  | _, _ => True

end Effect

section Transfer

variable {lib : Library σ} {env : Env} {S : Store σ → Store σ → Prop}
  {P P' : Effect σ → Store σ → Prop} {s s' : Store σ}

/-- What happens in a store happens in one that is related. -/
def Carries (lib : Library σ) (env : Env) (S : Store σ → Store σ → Prop)
    (P P' : Effect σ → Store σ → Prop) : Prop :=
  ∀ ev ev' w w', ev.Matches S ev' → S w w' → ev.Due lib env S w → P ev w → P' ev' w'

lemma Location.IntermediateMeets.of_respected (hS : Respected lib S) (hP : Carries lib env S P P')
    {loc : Location} (hkey : loc.key ∉ forbiddenMembers) (hs : S s s')
    (h : loc.IntermediateMeets P s) : loc.IntermediateMeets P' s' :=
  ⟨h.1, h.2.of_follows (fun _ => hS.newObject_follows) hs fun _ _ _ _ ht h =>
    hP (.write ..) _ _ _ rfl ht hkey h⟩

namespace Env

lemma StoreMeets.of_respected (hS : Respected lib S) (hP : Carries lib env S P P') {loc : Location}
    (hkey : loc.key ∉ forbiddenMembers) {v : Value} (hs : S s s') (h : env.StoreMeets P loc v s) :
    env.StoreMeets P' loc v s' :=
  After.of_follows (fun _ => hS.guardValue env v) hs h fun _ _ _ _ ht h =>
    hP (.write ..) _ _ _ rfl ht hkey h

lemma CallMeets.of_respected (hS : Respected lib S) (hP : Carries lib env S P P') {callee : Expr}
    {operands : List Expr} {p p' : Store σ → Prop} (hp : ∀ {t t'}, S t t' → p t → p' t')
    {this f : Value} (hs : S s s')
    (hfinds : ∀ g, f = .function g → ∃ r, callee.Finds lib env r this g s)
    (h : env.CallMeets lib P callee operands p this f s) :
    env.CallMeets lib P' callee operands p' this f s' := by
  refine ⟨h.1, ?_⟩
  obtain ⟨hthis, hrest⟩ := after_guardValue_iff.1 h.2
  obtain ⟨hcallee, hrest⟩ := after_guardCallee_iff.1 hrest
  rw [after_guardValue_iff, after_guardCallee_iff, (hS.veiled hs).forbidden?]
  refine ⟨hthis, hcallee, hrest.imp (hp hs) fun hargs => ?_⟩
  refine hargs.of_follows (fun _ => hS.evalArgs env le_rfl operands) hs ?_
  rintro args w w' hends hw ⟨g, rfl, hcall⟩
  exact ⟨g, rfl, hP (.call ⟨callee, operands, s, g, this, args⟩) _ w w' ⟨s', hs, rfl⟩ hw
    ⟨hfinds g rfl, hthis, hcallee, hends⟩ hcall⟩

end Env

namespace Expr

mutual

/-- What the evaluation of an expression comes to it comes to in a related store. -/
lemma meets_of_respected (hS : Respected lib S) (hP : Carries lib env S P P') (access : Access) :
    (e : Expr) → {s s' : Store σ} → S s s' → Meets lib env P access e s →
      Meets lib env P' access e s'
  | .literal _, _, _, _, h | .this, _, _, _, h | .locals, _, _, _, h => h
  | .array items, _, _, hs, h => listMeets_of_respected hS hP items hs h
  | .object properties, s, s', hs, h => by
    simp only [Meets, Store.after_making_iff] at h ⊢
    rw [show (s'.heap.newObject .empty none).1 = _ from (hS.veiled hs).size]
    exact propertiesMeet_of_respected hS hP hs properties (hS.newObject hs) h
  | .place p, _, _, hs, h => by
    refine Or.imp (placeMeets_of_respected hS hP access p hs) (fun h => ?_) h
    refine h.of_follows (fun _ => hS.locate env le_rfl access p) hs fun loc t t' hends ht h => ?_
    obtain ⟨n, hrun⟩ := hends
    exact ⟨h.1, h.2.of_respected hS hP (located_of_locate hrun).permitted ht⟩
  | .call callee args, s, _, hs, h => by
    have hargs : ∀ {t t'}, S t t' → ArgsMeet lib env P args t → ArgsMeet lib env P' args t' :=
      argsMeet_of_respected hS hP args
    cases callee with
    | place p =>
      refine Or.imp (placeMeets_of_respected hS hP .read p hs) (fun h => ?_) h
      refine h.of_follows (fun _ => hS.locate env le_rfl .read p) hs fun loc t t' hends ht h => ?_
      exact h.of_respected hS hP hargs ht fun g hg => ⟨s, loc.key, hg ▸ hends⟩
    | _ =>
      refine Or.imp (meets_of_respected hS hP .read _ hs) (fun h => ?_) h
      refine h.of_follows (fun _ => hS.eval env le_rfl .read _) hs fun f t t' hends ht h => ?_
      exact h.of_respected hS hP hargs ht fun g hg => ⟨s, rfl, hg ▸ hends⟩
  | .filter name input args, _, _, hs, h => by
    refine Or.imp (meets_of_respected hS hP .read input hs) (fun h => ?_) h
    refine h.of_follows (fun _ => hS.eval env le_rfl .read input) hs fun _ _ _ _ ht h => ?_
    refine Or.imp (listMeets_of_respected hS hP args ht) (fun h => ?_) h
    refine h.of_follows (fun _ => hS.evalList env le_rfl args) ht fun _ _ _ _ hu h => ?_
    exact h.imp fun _ h => ⟨h.1, hP (.filter ..) _ _ _ rfl hu trivial h.2⟩
  | .assign target value, _, _, hs, h => by
    refine Or.imp (placeMeets_of_respected hS hP .create target hs) (fun h => ?_) h
    refine h.of_follows (fun _ => hS.locate env le_rfl .create target) hs
      fun loc _ _ hends ht h => ?_
    refine Or.imp (meets_of_respected hS hP .read value ht) (fun h => ?_) h
    refine h.of_follows (fun _ => hS.eval env le_rfl .read value) ht fun _ _ _ _ hu h => ?_
    obtain ⟨n, hrun⟩ := hends
    exact h.of_respected hS hP (located_of_locate hrun).permitted hu
  | .unary _ operand, _, _, hs, h => by
    refine Or.imp (meets_of_respected hS hP .read operand hs) (fun h => ?_) h
    exact h.of_follows (fun _ => hS.eval env le_rfl .read operand) hs fun _ _ _ _ ht h =>
      hP (.unary ..) _ _ _ rfl ht trivial h
  | .binary _ left right, _, _, hs, h => by
    refine Or.imp (meets_of_respected hS hP .read left hs) (fun h => ?_) h
    refine h.of_follows (fun _ => hS.eval env le_rfl .read left) hs fun _ _ _ _ ht h => ?_
    refine Or.imp (meets_of_respected hS hP .read right ht) (fun h => ?_) h
    exact h.of_follows (fun _ => hS.eval env le_rfl .read right) ht fun _ _ _ _ hu h =>
      hP (.binary ..) _ _ _ rfl hu trivial h
  | .logical .and left right, _, _, hs, h => by
    refine Or.imp (meets_of_respected hS hP .read left hs) (fun h => ?_) h
    exact h.of_follows (fun _ => hS.eval env le_rfl .read left) hs fun _ _ _ _ ht h =>
      ⟨h.1, meets_of_respected hS hP .read right ht h.2⟩
  | .logical .or left right, _, _, hs, h => by
    refine Or.imp (meets_of_respected hS hP .read left hs) (fun h => ?_) h
    exact h.of_follows (fun _ => hS.eval env le_rfl .read left) hs fun _ _ _ _ ht h =>
      ⟨h.1, meets_of_respected hS hP .read right ht h.2⟩
  | .conditional test consequent alternate, _, _, hs, h => by
    refine Or.imp (meets_of_respected hS hP .read test hs) (fun h => ?_) h
    exact h.of_follows (fun _ => hS.eval env le_rfl .read test) hs fun _ _ _ _ ht h =>
      h.imp (fun h => ⟨h.1, meets_of_respected hS hP .read consequent ht h.2⟩)
        fun h => ⟨h.1, meets_of_respected hS hP .read alternate ht h.2⟩

lemma placeMeets_of_respected (hS : Respected lib S) (hP : Carries lib env S P P')
    (access : Access) : (p : Place) → {s s' : Store σ} → S s s' →
      PlaceMeets lib env P access p s → PlaceMeets lib env P' access p s'
  | .name _, _, _, _, h => h
  | .member base _, _, _, hs, h => meets_of_respected hS hP access base hs h
  | .element base key, _, _, hs, h => by
    refine Or.imp (meets_of_respected hS hP access base hs) (fun h => ?_) h
    refine h.of_follows (fun _ => hS.eval env le_rfl access base) hs fun _ _ _ _ ht h => ?_
    refine Or.imp (meets_of_respected hS hP .read key ht) (fun h => ?_) h
    exact h.of_follows (fun _ => hS.eval env le_rfl .read key) ht fun _ _ _ _ hu h =>
      hP (.text _) _ _ _ rfl hu trivial h

lemma listMeets_of_respected (hS : Respected lib S) (hP : Carries lib env S P P') :
    (es : List Expr) → {s s' : Store σ} → S s s' → ListMeets lib env P es s →
      ListMeets lib env P' es s'
  | [], _, _, _, h => h
  | e :: rest, _, _, hs, h => by
    refine Or.imp (meets_of_respected hS hP .read e hs) (fun h => ?_) h
    exact h.of_follows (fun _ => hS.eval env le_rfl .read e) hs fun _ _ _ _ ht h =>
      listMeets_of_respected hS hP rest ht h

lemma argsMeet_of_respected (hS : Respected lib S) (hP : Carries lib env S P P') :
    (es : List Expr) → {s s' : Store σ} → S s s' → ArgsMeet lib env P es s →
      ArgsMeet lib env P' es s'
  | [], _, _, _, h => h
  | e :: rest, _, _, hs, h => by
    refine Or.imp (meets_of_respected hS hP .read e hs) (fun h => ?_) h
    refine h.of_follows (fun _ => hS.eval env le_rfl .read e) hs fun v _ _ _ ht h => ?_
    exact h.of_follows (fun _ => hS.guardValue env v) ht fun _ _ _ _ hu h =>
      argsMeet_of_respected hS hP rest hu h

lemma propertiesMeet_of_respected (hS : Respected lib S) (hP : Carries lib env S P P')
    {r r' : Store σ} (hr : S r r') : (ps : List (PropertyKey × Expr)) → {s s' : Store σ} →
      S s s' → PropertiesMeet lib env P r.heap.objects.size ps s →
        PropertiesMeet lib env P' r.heap.objects.size ps s'
  | [], _, _, _, h => h
  | (key, e) :: rest, _, _, hs, h => by
    refine Or.imp (meets_of_respected hS hP .read e hs) (fun h => ?_) h
    refine h.of_follows (fun _ => hS.eval env le_rfl .read e) hs fun v _ _ _ ht h => ?_
    refine h.imp (hP (.property ..) _ _ _ rfl ht ⟨r, r', hr, rfl⟩) fun h => ?_
    rw [Store.after_changing_iff] at h ⊢
    exact propertiesMeet_of_respected hS hP hr rest (hS.setOwn hr ht key.text v) h

end

lemma statementsMeet_of_respected (hS : Respected lib S) (hP : Carries lib env S P P')
    (es : List Expr) {s s' : Store σ} (hs : S s s') (h : StatementsMeet lib env P es s) :
    StatementsMeet lib env P' es s' := by
  induction es generalizing s s' with
  | nil => exact h
  | cons e rest ih =>
    refine Or.imp (meets_of_respected hS hP .read e hs) (fun h => ?_) h
    exact h.of_follows (fun _ => hS.eval env le_rfl .read e) hs fun _ _ _ _ ht h => ih ht h

end Expr

/-- What the use of a compiled expression comes to it comes to in a related store. -/
lemma Expression.Meets.of_respected {e : Expression} {context : Value} {locals : Option Value}
    (hS : Respected lib S) (hP : Carries lib (e.env 0 context locals) S P P') (hs : S s s')
    {u : Use} (h : e.Meets lib context locals P s u) : e.Meets lib context locals P' s' u := by
  cases u with
  | eval => exact Expr.statementsMeet_of_respected hS hP e.body hs h
  | assign v =>
    obtain ⟨p, hp, h⟩ := h
    refine ⟨p, hp, Or.imp (Expr.placeMeets_of_respected hS hP .create p hs) (fun h => ?_) h⟩
    refine h.of_follows (fun _ => hS.locate _ le_rfl .create p) hs fun loc _ _ hends ht h => ?_
    obtain ⟨n, hrun⟩ := hends
    exact h.of_respected hS hP (Expr.located_of_locate hrun).permitted ht

/-- What happens is due. -/
lemma carries_due (lib : Library σ) (env : Env) (P : Effect σ → Store σ → Prop) :
    Carries lib env Eq P fun ev w => P ev w ∧ ev.Due lib env Eq w := by
  rintro ev ev' w _ hmatches rfl hdue h
  cases ev with
  | call c =>
    obtain ⟨_, rfl, rfl⟩ := hmatches
    exact ⟨h, hdue⟩
  | _ =>
    cases hmatches
    exact ⟨h, hdue⟩

/-- All that the use of a compiled expression comes to is due. -/
lemma Expression.due_of_meets {e : Expression} {context : Value} {locals : Option Value} {u : Use}
    (h : e.Meets lib context locals P s u) :
    ∃ ev w, P ev w ∧ ev.Due lib (e.env 0 context locals) Eq w :=
  exists_of_meets (h.of_respected (respected_eq lib) (carries_due lib _ P) rfl)

end Transfer

end DataBinding
