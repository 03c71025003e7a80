import DataBinding.Proofs.Conversions
import DataBinding.Proofs.Effects

/-!
# Where an evaluation hangs

An evaluation has no end just if it comes to an effect that has none (`Expression.endless_use_iff`).
The walk over the expression always comes to an end by itself, so what is left are the calls of
functions and filters, the conversions to texts and numbers, and the writes, which convert the new
length of an array.
-/

namespace DataBinding

open Compute (After Ends Endless Rising Total endless_bind_iff endless_bind_total_iff rising_const
  runOn)

variable {σ : Type}

/-- What happens here has no end. -/
def Effect.Hangs (lib : Library σ) : Effect σ → Store σ → Prop
  | .call c, s => Endless (fun n => lib.invoke n c.function c.this c.args) s
  | .filter behaviour args, s => runOn (lib.filter behaviour args) s = none
  | .text key, s => s.heap.text? key = none
  | .unary op v, s => s.heap.unary op v = none
  | .binary op v w, s => s.heap.binary op v w = none
  | .write base key v, s => s.heap.setMember base key v = none
  | .property .., _ => False

variable (lib : Library σ) (env : Env)

lemma Library.rising_invoke (f : Callable) (this : Value) (args : List Value) :
    Rising fun n => lib.invoke n f this args :=
  fun _ _ hle => (respected_eq lib).invoke hle f this args

/-- An object has no text of its own that could be endless. -/
lemma Heap.setMember_object_ne_none (h : Heap) (base : Value) (key : String) (o : ℕ) :
    h.setMember base key (.object o) ≠ none := by
  rw [Ne, setMember_eq_none_iff]
  rintro ⟨-, -, hloops⟩
  obtain ⟨a, ha⟩ := isArray_of_loops hloops
  cases ha

lemma Location.total_intermediate (loc : Location) :
    Total (loc.intermediate : Compute (Store σ) Value) := by
  unfold intermediate
  split
  · refine (Store.total_making _).bind fun o => Total.bind (fun s hnone => ?_) fun _ =>
      Compute.total_pure _
    rw [Store.runOn_changingIf, Option.map_eq_none_iff] at hnone
    exact s.heap.setMember_object_ne_none _ _ _ hnone
  · exact Compute.total_pure _

lemma Location.not_intermediateMeets_hangs (loc : Location) (s : Store σ) :
    ¬ loc.IntermediateMeets (Effect.Hangs lib) s := by
  rintro ⟨-, o, t, -, h⟩
  exact t.heap.setMember_object_ne_none _ _ _ h

namespace Env

variable {s : Store σ}

lemma endless_store_iff {loc : Location} {v : Value} :
    Endless (fun _ => env.store loc v) s ↔ env.StoreMeets (Effect.Hangs lib) loc v s := by
  refine (env.total_guardValue v).endless_bind_congr (fun _ => rising_const _) fun _ t => ?_
  refine (endless_bind_total_iff (rising_const _) fun _ => Compute.total_pure _).trans ?_
  rw [Compute.endless_const_iff, Store.runOn_changingIf, Option.map_eq_none_iff]
  rfl

lemma endless_applyFilter_iff {name : String} {args : List Value} :
    Endless (fun _ => env.applyFilter lib name args) s ↔
      env.FilterMeets (Effect.Hangs lib) name args s := by
  unfold applyFilter FilterMeets
  cases env.filters.lookup name with
  | some behaviour => simp [Compute.endless_const_iff, Effect.Hangs]
  | none => simp [Compute.endless_const_iff]

lemma rising_enter (this f : Value) (args : List Value) :
    Rising fun n => (env.withCallLimit n).enter lib this f args := by
  cases f with
  | function g =>
    exact (lib.rising_invoke g this args).bind fun result =>
      rising_const (env.guardValue result >>= fun _ => pure result)
  | _ => exact fun _ _ _ => .of_eq _

lemma endless_enter_iff {this f : Value} {args : List Value} :
    Endless (fun n => (env.withCallLimit n).enter lib this f args) s ↔
      ∃ g, f = .function g ∧ Endless (fun n => lib.invoke n g this args) s := by
  cases f with
  | function g =>
    refine (endless_bind_total_iff (lib.rising_invoke g this args) fun result =>
      (env.total_guardValue result).bind fun _ => Compute.total_pure _).trans ?_
    simp
  | _ => simp [enter, Compute.endless_const_iff]

lemma endless_call_iff {callee : Expr} {operands : List Expr} {operandsMeet : Store σ → Prop}
    (hoperands : ∀ s, Endless (Expr.evalArgsAt lib env operands) s ↔ operandsMeet s)
    {this f : Value} :
    Endless (fun n => (env.withCallLimit n).call lib this f (Expr.evalArgsAt lib env operands n))
        s ↔
      env.CallMeets lib (Effect.Hangs lib) callee operands operandsMeet this f s := by
  unfold CallMeets
  cases hf : f.isNullish with
  | true => simp [call, hf, Compute.endless_const_iff]
  | false =>
    simp only [(env.withCallLimit _).call_eq lib hf, true_and]
    have hargs := Expr.rising_evalArgsAt lib env operands
    have henter := env.rising_enter lib this f
    refine (env.total_guardValue this).endless_bind_congr
      (fun _ => (rising_const (env.guardCallee f)).bind fun _ => hargs.bind henter) fun _ t => ?_
    refine (env.total_guardCallee f).endless_bind_congr (fun _ => hargs.bind henter) fun _ u => ?_
    exact Compute.endless_bind_congr hargs henter (hoperands u) fun args w =>
      env.endless_enter_iff lib

end Env

namespace Expr

mutual

/-- The evaluation of an expression has no end just if it comes to something that has none. -/
lemma endless_eval_iff (access : Access) : (e : Expr) → (s : Store σ) →
    (Endless (evalAt lib env access e) s ↔ Meets lib env (Effect.Hangs lib) access e s)
  | .literal l, s => iff_of_false ((Compute.total_pure l.value).not_endless s) id
  | .this, s => iff_of_false ((Compute.total_pure env.context).not_endless s) id
  | .locals, s => iff_of_false ((Compute.total_pure (env.locals.getD .undefined)).not_endless s) id
  | .array items, s => by
    refine (endless_bind_total_iff (rising_evalListAt lib env items) fun _ =>
      (Store.total_making _).bind fun _ => Compute.total_pure _).trans ?_
    exact endless_evalList_iff items s
  | .object properties, s => by
    refine (Store.total_making _).endless_bind_congr (fun o =>
      (rising_evalPropertiesAt lib env o properties).bind fun _ => rising_const _) fun o t => ?_
    refine (endless_bind_total_iff (rising_evalPropertiesAt lib env o properties) fun _ =>
      Compute.total_pure _).trans ?_
    exact endless_evalProperties_iff o properties t
  | .place p, s => by
    refine Compute.endless_bind_congr (rising_locateAt lib env access p) (fun _ => rising_const _)
      (endless_locate_iff access p s) fun loc t => ?_
    cases access with
    | read => exact iff_of_false ((Compute.total_pure _).not_endless t) fun h => nomatch h.1
    | create =>
      exact iff_of_false (loc.total_intermediate.not_endless t) fun h =>
        loc.not_intermediateMeets_hangs lib t h.2
  | .call callee args, s => by
    have hrising : ∀ this f, Rising fun n =>
        (env.withCallLimit n).call lib this f (evalArgsAt lib env args n) :=
      fun this f _ _ hle => (respected_eq lib).callValue env hle this f
        ((respected_eq lib).evalArgs env hle args)
    cases callee with
    | place p =>
      exact Compute.endless_bind_congr (rising_locateAt lib env .read p) (fun _ => hrising _ _)
        (endless_locate_iff .read p s) fun loc t =>
          env.endless_call_iff lib (endless_evalArgs_iff args)
    | _ =>
      exact Compute.endless_bind_congr (rising_evalAt lib env .read _) (fun _ => hrising _ _)
        (endless_eval_iff .read _ s) fun loc t =>
          env.endless_call_iff lib (endless_evalArgs_iff args)
  | .filter name input args, s => by
    have hrest : ∀ v vs, Rising fun _ : ℕ => env.applyFilter lib name (v :: vs) :=
      fun v vs => rising_const _
    refine Compute.endless_bind_congr (rising_evalAt lib env .read input)
      (fun v => (rising_evalListAt lib env args).bind (hrest v))
      (endless_eval_iff .read input s) fun v t => ?_
    refine Compute.endless_bind_congr (rising_evalListAt lib env args) (hrest v)
      (endless_evalList_iff args t) fun vs u => ?_
    exact env.endless_applyFilter_iff lib
  | .assign target value, s => by
    have hrest : ∀ loc v, Rising fun _ : ℕ => (env.store loc v : Compute (Store σ) Value) :=
      fun loc v => rising_const _
    refine Compute.endless_bind_congr (rising_locateAt lib env .create target)
      (fun loc => (rising_evalAt lib env .read value).bind (hrest loc))
      (endless_locate_iff .create target s) fun loc t => ?_
    refine Compute.endless_bind_congr (rising_evalAt lib env .read value) (hrest loc)
      (endless_eval_iff .read value t) fun v u => ?_
    exact env.endless_store_iff lib
  | .unary op operand, s => by
    refine Compute.endless_bind_congr (rising_evalAt lib env .read operand)
      (fun _ => rising_const _) (endless_eval_iff .read operand s) fun v t => ?_
    exact Store.endless_readingEndless_iff
  | .binary op left right, s => by
    refine Compute.endless_bind_congr (rising_evalAt lib env .read left)
      (fun _ => (rising_evalAt lib env .read right).bind fun _ => rising_const _)
      (endless_eval_iff .read left s) fun v t => ?_
    refine Compute.endless_bind_congr (rising_evalAt lib env .read right) (fun _ => rising_const _)
      (endless_eval_iff .read right t) fun w u => ?_
    exact Store.endless_readingEndless_iff
  | .logical .and left right, s => by
    refine Compute.endless_bind_congr (rising_evalAt lib env .read left)
      (fun v => ?_) (endless_eval_iff .read left s) fun v t => ?_
    · split
      · exact rising_evalAt lib env .read right
      · exact rising_const _
    · cases v.truthy with
      | true => simpa using endless_eval_iff .read right t
      | false => simp [Compute.endless_const_iff]
  | .logical .or left right, s => by
    refine Compute.endless_bind_congr (rising_evalAt lib env .read left)
      (fun v => ?_) (endless_eval_iff .read left s) fun v t => ?_
    · split
      · exact rising_const _
      · exact rising_evalAt lib env .read right
    · cases v.truthy with
      | true => simp [Compute.endless_const_iff]
      | false => simpa using endless_eval_iff .read right t
  | .conditional test consequent alternate, s => by
    refine Compute.endless_bind_congr (rising_evalAt lib env .read test)
      (fun v => ?_) (endless_eval_iff .read test s) fun v t => ?_
    · split
      · exact rising_evalAt lib env .read consequent
      · exact rising_evalAt lib env .read alternate
    · cases v.truthy with
      | true => simpa using endless_eval_iff .read consequent t
      | false => simpa using endless_eval_iff .read alternate t

lemma endless_locate_iff (access : Access) : (p : Place) → (s : Store σ) →
    (Endless (locateAt lib env access p) s ↔ PlaceMeets lib env (Effect.Hangs lib) access p s)
  | .name name, s => iff_of_false ((env.total_locateName name).not_endless s) id
  | .member base key, s =>
    (endless_bind_total_iff (rising_evalAt lib env access base) fun v =>
      env.total_locateMember access v key).trans (endless_eval_iff access base s)
  | .element base key, s => by
    have hrest : ∀ v k, Rising fun _ : ℕ => Store.readingEndless (·.text? k) >>= fun key =>
        (env.locateMember access v key : Compute (Store σ) Location) := fun v k => rising_const _
    refine Compute.endless_bind_congr (rising_evalAt lib env access base)
      (fun v => (rising_evalAt lib env .read key).bind (hrest v)) (endless_eval_iff access base s)
      fun v t => ?_
    refine Compute.endless_bind_congr (rising_evalAt lib env .read key) (hrest v)
      (endless_eval_iff .read key t) fun k u => ?_
    exact (endless_bind_total_iff (rising_const _) fun key =>
      env.total_locateMember access v key).trans Store.endless_readingEndless_iff

lemma endless_evalList_iff : (es : List Expr) → (s : Store σ) →
    (Endless (evalListAt lib env es) s ↔ ListMeets lib env (Effect.Hangs lib) es s)
  | [], s => iff_of_false ((Compute.total_pure _).not_endless s) id
  | e :: rest, s => by
    refine Compute.endless_bind_congr (rising_evalAt lib env .read e)
      (fun _ => (rising_evalListAt lib env rest).bind fun _ => rising_const _)
      (endless_eval_iff .read e s) fun v t => ?_
    exact (endless_bind_total_iff (rising_evalListAt lib env rest) fun _ =>
      Compute.total_pure _).trans (endless_evalList_iff rest t)

lemma endless_evalArgs_iff : (es : List Expr) → (s : Store σ) →
    (Endless (evalArgsAt lib env es) s ↔ ArgsMeet lib env (Effect.Hangs lib) es s)
  | [], s => iff_of_false ((Compute.total_pure _).not_endless s) id
  | e :: rest, s => by
    have hrest : ∀ v : Value, Rising fun n => evalArgsAt lib env rest n >>= fun vs =>
        (pure (v :: vs) : Compute (Store σ) (List Value)) :=
      fun v => (rising_evalArgsAt lib env rest).bind fun _ => rising_const _
    refine Compute.endless_bind_congr (rising_evalAt lib env .read e)
      (fun v => (rising_const (env.guardValue v)).bind fun _ => hrest v)
      (endless_eval_iff .read e s) fun v t => ?_
    refine (env.total_guardValue v).endless_bind_congr (fun _ => hrest v) fun _ u => ?_
    exact (endless_bind_total_iff (rising_evalArgsAt lib env rest) fun _ =>
      Compute.total_pure _).trans (endless_evalArgs_iff rest u)

lemma endless_evalProperties_iff (o : ℕ) : (ps : List (PropertyKey × Expr)) → (s : Store σ) →
    (Endless (evalPropertiesAt lib env o ps) s ↔
      PropertiesMeet lib env (Effect.Hangs lib) o ps s)
  | [], s => iff_of_false ((Compute.total_pure _).not_endless s) id
  | (key, e) :: rest, s => by
    have hrest := rising_evalPropertiesAt lib env o rest
    refine Compute.endless_bind_congr (rising_evalAt lib env .read e)
      (fun v => (rising_const _).bind fun _ => hrest) (endless_eval_iff .read e s) fun v t => ?_
    refine ((Store.total_changing _).endless_bind_congr (fun _ => hrest) fun _ u =>
      endless_evalProperties_iff o rest u).trans (or_iff_right id).symm

end

lemma endless_evalStatements_iff (last : Value) (es : List Expr) (s : Store σ) :
    Endless (evalStatementsAt lib env last es) s ↔
      StatementsMeet lib env (Effect.Hangs lib) es s := by
  induction es generalizing last s with
  | nil => exact iff_of_false ((Compute.total_pure last).not_endless s) id
  | cons e rest ih =>
    exact Compute.endless_bind_congr (rising_evalAt lib env .read e)
      (fun v => rising_evalStatementsAt lib env v rest) (endless_eval_iff lib env .read e s)
      fun v t => ih v t

end Expr

/-- The use of a compiled expression has no end just if it comes to something that has none. -/
theorem Expression.endless_use_iff (e : Expression) (context : Value) (locals : Option Value)
    (s : Store σ) (u : Use) : Endless (fun n => e.use lib context locals n u) s ↔
      e.Meets lib context locals (Effect.Hangs lib) s u := by
  cases u with
  | eval =>
    exact Expr.endless_evalStatements_iff lib (e.env 0 context locals) .undefined e.body s
  | assign v =>
    unfold use assign Meets
    cases e.target? with
    | none => simp [Compute.endless_const_iff]
    | some p =>
      simp only [Option.some.injEq, exists_eq_left']
      let env := e.env 0 context locals
      change Endless (fun n => Expr.locateAt lib env .create p n >>= fun loc => env.store loc v) s
        ↔ _
      exact Compute.endless_bind_congr (Expr.rising_locateAt lib env .create p)
        (fun loc => rising_const (env.store loc v)) (Expr.endless_locate_iff lib env .create p s)
        fun loc t => env.endless_store_iff lib

end DataBinding
