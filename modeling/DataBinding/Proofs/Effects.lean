import DataBinding.Proofs.Respect

/-!
# What an evaluation comes to

An evaluation looks things up, which always has an end and changes nothing, and in between it does
what can matter to somebody else: it calls functions, applies filters, converts values and writes
members.  These are its effects.  `Expr.Meets P access e s` says that the evaluation of `e` from the
store `s` comes to an effect of which `P` holds in the store of that moment.  It follows the course
of `Expr.eval` step by step, each step begun where the steps before it have ended.

Chains of calls are not limited here: a step has ended if it has with some limit.
-/

namespace DataBinding

open Compute (After Ends Rising)

variable {σ : Type}

/-! ## Effects -/

/-- A function that is called by a call expression: the callee and the operands as they are written,
the store in which the callee had been found, the function, its receiver and its arguments. -/
structure FunctionCall (σ : Type) where
  callee : Expr
  operands : List Expr
  found : Store σ
  function : Callable
  this : Value
  args : List Value

/-- What an evaluation does, apart from looking things up. -/
inductive Effect (σ : Type) where
  | call (c : FunctionCall σ)
  | filter (behaviour : String) (args : List Value)
  | text (key : Value)
  | unary (op : UnaryOp) (v : Value)
  | binary (op : BinaryOp) (v w : Value)
  | write (base : Value) (key : String) (v : Value)
  | property (o : ℕ) (key : String) (v : Value)

/-- The library of a host whose functions and filters do nothing. -/
def Library.idle : Library Unit := ⟨fun _ _ _ => pure .undefined, fun _ _ => pure .undefined⟩

/-! ## Evaluation without a limit -/

namespace Expr

variable (lib : Library σ) (env : Env)

/-- The value of an expression, for every limit on chains of calls. -/
abbrev evalAt (access : Access) (e : Expr) : ℕ → Compute (Store σ) Value :=
  fun n => eval lib (env.withCallLimit n) access e

/-- The location that a place denotes, for every limit. -/
abbrev locateAt (access : Access) (p : Place) : ℕ → Compute (Store σ) Location :=
  fun n => locate lib (env.withCallLimit n) access p

/-- The values of several expressions, for every limit. -/
abbrev evalListAt (es : List Expr) : ℕ → Compute (Store σ) (List Value) :=
  fun n => evalList lib (env.withCallLimit n) es

/-- The values of the arguments of a call, for every limit. -/
abbrev evalArgsAt (es : List Expr) : ℕ → Compute (Store σ) (List Value) :=
  fun n => evalArgs lib (env.withCallLimit n) es

/-- The properties of an object literal, for every limit. -/
abbrev evalPropertiesAt (o : ℕ) (ps : List (PropertyKey × Expr)) : ℕ → Compute (Store σ) Unit :=
  fun n => evalProperties lib (env.withCallLimit n) o ps

/-- The value of the last of several statements, for every limit. -/
abbrev evalStatementsAt (last : Value) (es : List Expr) : ℕ → Compute (Store σ) Value :=
  fun n => evalStatements lib (env.withCallLimit n) last es

lemma rising_evalAt (access : Access) (e : Expr) : Rising (evalAt lib env access e) :=
  fun _ _ hle => (respected_eq lib).eval env hle access e

lemma rising_locateAt (access : Access) (p : Place) : Rising (locateAt lib env access p) :=
  fun _ _ hle => (respected_eq lib).locate env hle access p

lemma rising_evalListAt (es : List Expr) : Rising (evalListAt lib env es) :=
  fun _ _ hle => (respected_eq lib).evalList env hle es

lemma rising_evalArgsAt (es : List Expr) : Rising (evalArgsAt lib env es) :=
  fun _ _ hle => (respected_eq lib).evalArgs env hle es

lemma rising_evalPropertiesAt (o : ℕ) (ps : List (PropertyKey × Expr)) :
    Rising (evalPropertiesAt lib env o ps) :=
  fun _ _ hle =>
    (respected_eq lib).evalProperties env hle (fun _ _ hs _ _ => hs ▸ rfl) ps

lemma rising_evalStatementsAt (last : Value) (es : List Expr) :
    Rising (evalStatementsAt lib env last es) :=
  fun _ _ hle => (respected_eq lib).evalStatements env hle last es

end Expr

/-! ## Meeting an effect -/

section Meeting

variable (lib : Library σ) (env : Env) (P : Effect σ → Store σ → Prop)

/-- An object is put in the place of a missing intermediate. -/
def Location.IntermediateMeets (loc : Location) (s : Store σ) : Prop :=
  (loc.value.isNullish && !loc.base.isNullish) = true ∧
    After (fun _ => Store.making (·.newObject .empty none)) s fun o t =>
      P (.write loc.base loc.key (.object o)) t

namespace Env

/-- A value that passes the guard is written. -/
def StoreMeets (loc : Location) (v : Value) (s : Store σ) : Prop :=
  After (fun _ => env.guardValue v) s fun _ t => P (.write loc.base loc.key v) t

/-- A filter that is known is applied. -/
def FilterMeets (name : String) (args : List Value) (s : Store σ) : Prop :=
  ∃ behaviour, env.filters.lookup name = some behaviour ∧ P (.filter behaviour args) s

/-- A callee and a receiver that pass their guards meet what the operands meet, and then the
function is called. -/
def CallMeets (callee : Expr) (operands : List Expr) (operandsMeet : Store σ → Prop)
    (this f : Value) (s : Store σ) : Prop :=
  f.isNullish = false ∧
    After (fun _ => env.guardValue this) s fun _ t =>
      After (fun _ => env.guardCallee f) t fun _ u =>
        operandsMeet u ∨ After (Expr.evalArgsAt lib env operands) u fun args w =>
          ∃ g, f = .function g ∧ P (.call ⟨callee, operands, u, g, this, args⟩) w

end Env

namespace Expr

mutual

/-- Evaluating an expression comes to an effect of this kind. -/
def Meets (access : Access) : Expr → Store σ → Prop
  | .literal _, _ | .this, _ | .locals, _ => False
  | .array items, s => ListMeets items s
  | .object properties, s =>
    After (fun _ => Store.making (·.newObject .empty none)) s fun o t =>
      PropertiesMeet o properties t
  | .place p, s =>
    PlaceMeets access p s ∨ After (locateAt lib env access p) s fun loc t =>
      access = .create ∧ loc.IntermediateMeets P t
  | .call (.place p) args, s =>
    PlaceMeets .read p s ∨ After (locateAt lib env .read p) s fun loc t =>
      env.CallMeets lib P (.place p) args (ArgsMeet args) loc.base loc.value t
  | .call callee args, s =>
    Meets .read callee s ∨ After (evalAt lib env .read callee) s fun f t =>
      env.CallMeets lib P callee args (ArgsMeet args) .undefined f t
  | .filter name input args, s =>
    Meets .read input s ∨ After (evalAt lib env .read input) s fun v t =>
      ListMeets args t ∨ After (evalListAt lib env args) t fun vs u =>
        env.FilterMeets P name (v :: vs) u
  | .assign target value, s =>
    PlaceMeets .create target s ∨ After (locateAt lib env .create target) s fun loc t =>
      Meets .read value t ∨ After (evalAt lib env .read value) t fun v u =>
        env.StoreMeets P loc v u
  | .unary op operand, s =>
    Meets .read operand s ∨ After (evalAt lib env .read operand) s fun v t => P (.unary op v) t
  | .binary op left right, s =>
    Meets .read left s ∨ After (evalAt lib env .read left) s fun v t =>
      Meets .read right t ∨ After (evalAt lib env .read right) t fun w u => P (.binary op v w) u
  | .logical .and left right, s =>
    Meets .read left s ∨ After (evalAt lib env .read left) s fun v t =>
      v.truthy = true ∧ Meets .read right t
  | .logical .or left right, s =>
    Meets .read left s ∨ After (evalAt lib env .read left) s fun v t =>
      v.truthy = false ∧ Meets .read right t
  | .conditional test consequent alternate, s =>
    Meets .read test s ∨ After (evalAt lib env .read test) s fun v t =>
      v.truthy = true ∧ Meets .read consequent t ∨ v.truthy = false ∧ Meets .read alternate t

/-- Locating a place comes to an effect of this kind. -/
def PlaceMeets (access : Access) : Place → Store σ → Prop
  | .name _, _ => False
  | .member base _, s => Meets access base s
  | .element base key, s =>
    Meets access base s ∨ After (evalAt lib env access base) s fun _ t =>
      Meets .read key t ∨ After (evalAt lib env .read key) t fun k u => P (.text k) u

/-- Evaluating several expressions comes to an effect of this kind. -/
def ListMeets : List Expr → Store σ → Prop
  | [], _ => False
  | e :: rest, s =>
    Meets .read e s ∨ After (evalAt lib env .read e) s fun _ t => ListMeets rest t

/-- Evaluating the arguments of a call comes to an effect of this kind. -/
def ArgsMeet : List Expr → Store σ → Prop
  | [], _ => False
  | e :: rest, s =>
    Meets .read e s ∨ After (evalAt lib env .read e) s fun v t =>
      After (fun _ => env.guardValue v) t fun _ u => ArgsMeet rest u

/-- Writing the properties of an object literal comes to an effect of this kind. -/
def PropertiesMeet (o : ℕ) : List (PropertyKey × Expr) → Store σ → Prop
  | [], _ => False
  | (key, e) :: rest, s =>
    Meets .read e s ∨ After (evalAt lib env .read e) s fun v t =>
      P (.property o key.text v) t ∨
        After (fun _ => Store.changing (·.setOwn o key.text v)) t fun _ u =>
          PropertiesMeet o rest u

end

/-- Running statements comes to an effect of this kind. -/
def StatementsMeet : List Expr → Store σ → Prop
  | [], _ => False
  | e :: rest, s =>
    Meets lib env P .read e s ∨ After (evalAt lib env .read e) s fun _ t => StatementsMeet rest t

end Expr

end Meeting

/-! ## Effects that there are -/

section Exists

variable {lib : Library σ} {env : Env} {P : Effect σ → Store σ → Prop} {s : Store σ}

lemma Location.IntermediateMeets.exists {loc : Location} (h : loc.IntermediateMeets P s) :
    ∃ ev t, P ev t := by
  obtain ⟨-, o, t, -, h⟩ := h
  exact ⟨_, t, h⟩

lemma Env.StoreMeets.exists {loc : Location} {v : Value} (h : env.StoreMeets P loc v s) :
    ∃ ev t, P ev t := by
  obtain ⟨-, t, -, h⟩ := h
  exact ⟨_, t, h⟩

lemma Env.CallMeets.exists {callee : Expr} {operands : List Expr} {p : Store σ → Prop}
    {this f : Value} (hp : ∀ {t}, p t → ∃ ev t, P ev t)
    (h : env.CallMeets lib P callee operands p this f s) : ∃ ev t, P ev t := by
  obtain ⟨-, -, -, -, -, u, -, h | ⟨_, w, -, g, -, h⟩⟩ := h
  · exact hp h
  · exact ⟨_, w, h⟩

namespace Expr

mutual

/-- If evaluation comes to an effect of this kind then there is one. -/
lemma exists_of_meets {access : Access} : {e : Expr} → {s : Store σ} →
    Meets lib env P access e s → ∃ ev t, P ev t
  | .literal _, _, h | .this, _, h | .locals, _, h => h.elim
  | .array items, _, h => exists_of_listMeets h
  | .object _, _, ⟨_, _, _, h⟩ => exists_of_propertiesMeet h
  | .place p, _, .inl h => exists_of_placeMeets h
  | .place p, _, .inr ⟨_, _, _, _, h⟩ => h.exists
  | .call callee args, _, h => by
    cases callee with
    | place p =>
      rcases h with h | ⟨_, _, -, h⟩
      · exact exists_of_placeMeets h
      · exact h.exists exists_of_argsMeet
    | _ =>
      rcases h with h | ⟨_, _, -, h⟩
      · exact exists_of_meets h
      · exact h.exists exists_of_argsMeet
  | .filter _ input args, _, .inl h => exists_of_meets h
  | .filter _ input args, _, .inr ⟨_, _, _, .inl h⟩ => exists_of_listMeets h
  | .filter _ input args, _, .inr ⟨_, _, _, .inr ⟨_, u, _, _, _, h⟩⟩ => ⟨_, u, h⟩
  | .assign target value, _, .inl h => exists_of_placeMeets h
  | .assign target value, _, .inr ⟨_, _, _, .inl h⟩ => exists_of_meets h
  | .assign target value, _, .inr ⟨_, _, _, .inr ⟨_, _, _, h⟩⟩ => h.exists
  | .unary _ operand, _, .inl h => exists_of_meets h
  | .unary _ operand, _, .inr ⟨_, t, _, h⟩ => ⟨_, t, h⟩
  | .binary _ left right, _, .inl h => exists_of_meets h
  | .binary _ left right, _, .inr ⟨_, _, _, .inl h⟩ => exists_of_meets h
  | .binary _ left right, _, .inr ⟨_, _, _, .inr ⟨_, u, _, h⟩⟩ => ⟨_, u, h⟩
  | .logical .and left right, _, .inl h => exists_of_meets h
  | .logical .and left right, _, .inr ⟨_, _, _, _, h⟩ => exists_of_meets h
  | .logical .or left right, _, .inl h => exists_of_meets h
  | .logical .or left right, _, .inr ⟨_, _, _, _, h⟩ => exists_of_meets h
  | .conditional test consequent alternate, _, .inl h => exists_of_meets h
  | .conditional test consequent alternate, _, .inr ⟨_, _, _, .inl ⟨_, h⟩⟩ => exists_of_meets h
  | .conditional test consequent alternate, _, .inr ⟨_, _, _, .inr ⟨_, h⟩⟩ => exists_of_meets h

lemma exists_of_placeMeets {access : Access} : {p : Place} → {s : Store σ} →
    PlaceMeets lib env P access p s → ∃ ev t, P ev t
  | .name _, _, h => h.elim
  | .member _ _, _, h => exists_of_meets h
  | .element _ _, _, .inl h => exists_of_meets h
  | .element _ _, _, .inr ⟨_, _, _, .inl h⟩ => exists_of_meets h
  | .element _ _, _, .inr ⟨_, _, _, .inr ⟨_, u, _, h⟩⟩ => ⟨_, u, h⟩

lemma exists_of_listMeets : {es : List Expr} → {s : Store σ} →
    ListMeets lib env P es s → ∃ ev t, P ev t
  | [], _, h => h.elim
  | _ :: _, _, .inl h => exists_of_meets h
  | _ :: _, _, .inr ⟨_, _, _, h⟩ => exists_of_listMeets h

lemma exists_of_argsMeet : {es : List Expr} → {s : Store σ} →
    ArgsMeet lib env P es s → ∃ ev t, P ev t
  | [], _, h => h.elim
  | _ :: _, _, .inl h => exists_of_meets h
  | _ :: _, _, .inr ⟨_, _, _, _, _, _, h⟩ => exists_of_argsMeet h

lemma exists_of_propertiesMeet {o : ℕ} : {ps : List (PropertyKey × Expr)} → {s : Store σ} →
    PropertiesMeet lib env P o ps s → ∃ ev t, P ev t
  | [], _, h => h.elim
  | (_, _) :: _, _, .inl h => exists_of_meets h
  | (_, _) :: _, _, .inr ⟨_, t, _, .inl h⟩ => ⟨_, t, h⟩
  | (_, _) :: _, _, .inr ⟨_, _, _, .inr ⟨_, _, _, h⟩⟩ => exists_of_propertiesMeet h

end

lemma exists_of_statementsMeet {es : List Expr} (h : StatementsMeet lib env P es s) :
    ∃ ev t, P ev t := by
  induction es generalizing s with
  | nil => exact h.elim
  | cons e rest ih =>
    rcases h with h | ⟨_, _, -, h⟩
    · exact exists_of_meets h
    · exact ih h

end Expr

end Exists

/-! ## Effects of either of two kinds -/

section Or

variable {lib : Library σ} {env : Env} {P Q : Effect σ → Store σ → Prop}

lemma Location.intermediateMeets_or_iff {loc : Location} {s : Store σ} :
    loc.IntermediateMeets (fun ev t => P ev t ∨ Q ev t) s ↔
      loc.IntermediateMeets P s ∨ loc.IntermediateMeets Q s := by
  simp only [Location.IntermediateMeets, Compute.after_or_iff, and_or_left]

lemma Env.storeMeets_or_iff {loc : Location} {v : Value} {s : Store σ} :
    env.StoreMeets (fun ev t => P ev t ∨ Q ev t) loc v s ↔
      env.StoreMeets P loc v s ∨ env.StoreMeets Q loc v s :=
  Compute.after_or_iff

lemma Env.callMeets_or_iff {callee : Expr} {operands : List Expr} {p q r : Store σ → Prop}
    (h : ∀ s, r s ↔ p s ∨ q s) {this f : Value} {s : Store σ} :
    env.CallMeets lib (fun ev t => P ev t ∨ Q ev t) callee operands r this f s ↔
      env.CallMeets lib P callee operands p this f s ∨
        env.CallMeets lib Q callee operands q this f s := by
  simp only [Env.CallMeets, ← and_or_left, ← Compute.after_or_iff]
  refine and_congr_right fun _ => Compute.after_congr fun _ _ _ => ?_
  refine Compute.after_congr fun _ u _ => ?_
  refine Compute.or_after_or_iff (h u) fun args w => ?_
  simp only [and_or_left, exists_or]

namespace Expr

mutual

/-- Evaluating comes to an effect of either of two kinds just if it comes to one of the first kind
or to one of the second. -/
lemma meets_or_iff (access : Access) : (e : Expr) → (s : Store σ) →
    (Meets lib env (fun ev t => P ev t ∨ Q ev t) access e s ↔
      Meets lib env P access e s ∨ Meets lib env Q access e s)
  | .literal _, _ | .this, _ | .locals, _ => (or_self_iff).symm
  | .array items, s => listMeets_or_iff items s
  | .object properties, s =>
    (Compute.after_congr fun o t _ => propertiesMeet_or_iff o properties t).trans
      Compute.after_or_iff
  | .place p, s =>
    Compute.or_after_or_iff (placeMeets_or_iff access p s) fun _ _ => by
      rw [Location.intermediateMeets_or_iff, and_or_left]
  | .call callee args, s => by
    cases callee with
    | place p =>
      exact Compute.or_after_or_iff (placeMeets_or_iff .read p s) fun _ _ =>
        Env.callMeets_or_iff (argsMeet_or_iff args)
    | _ =>
      exact Compute.or_after_or_iff (meets_or_iff .read _ s) fun _ _ =>
        Env.callMeets_or_iff (argsMeet_or_iff args)
  | .filter _ input args, s =>
    Compute.or_after_or_iff (meets_or_iff .read input s) fun _ t =>
      Compute.or_after_or_iff (listMeets_or_iff args t) fun _ _ => by
        simp only [Env.FilterMeets, and_or_left, exists_or]
  | .assign target value, s =>
    Compute.or_after_or_iff (placeMeets_or_iff .create target s) fun _ t =>
      Compute.or_after_or_iff (meets_or_iff .read value t) fun _ _ => Env.storeMeets_or_iff
  | .unary _ operand, s =>
    Compute.or_after_or_iff (meets_or_iff .read operand s) fun _ _ => Iff.rfl
  | .binary _ left right, s =>
    Compute.or_after_or_iff (meets_or_iff .read left s) fun _ t =>
      Compute.or_after_or_iff (meets_or_iff .read right t) fun _ _ => Iff.rfl
  | .logical .and left right, s =>
    Compute.or_after_or_iff (meets_or_iff .read left s) fun _ t => by
      rw [meets_or_iff .read right t, and_or_left]
  | .logical .or left right, s =>
    Compute.or_after_or_iff (meets_or_iff .read left s) fun _ t => by
      rw [meets_or_iff .read right t, and_or_left]
  | .conditional test consequent alternate, s =>
    Compute.or_after_or_iff (meets_or_iff .read test s) fun _ t => by
      rw [meets_or_iff .read consequent t, meets_or_iff .read alternate t, and_or_left, and_or_left,
        or_or_or_comm]

lemma placeMeets_or_iff (access : Access) : (p : Place) → (s : Store σ) →
    (PlaceMeets lib env (fun ev t => P ev t ∨ Q ev t) access p s ↔
      PlaceMeets lib env P access p s ∨ PlaceMeets lib env Q access p s)
  | .name _, _ => (or_self_iff).symm
  | .member base _, s => meets_or_iff access base s
  | .element base key, s =>
    Compute.or_after_or_iff (meets_or_iff access base s) fun _ t =>
      Compute.or_after_or_iff (meets_or_iff .read key t) fun _ _ => Iff.rfl

lemma listMeets_or_iff : (es : List Expr) → (s : Store σ) →
    (ListMeets lib env (fun ev t => P ev t ∨ Q ev t) es s ↔
      ListMeets lib env P es s ∨ ListMeets lib env Q es s)
  | [], _ => (or_self_iff).symm
  | e :: rest, s =>
    Compute.or_after_or_iff (meets_or_iff .read e s) fun _ t => listMeets_or_iff rest t

lemma argsMeet_or_iff : (es : List Expr) → (s : Store σ) →
    (ArgsMeet lib env (fun ev t => P ev t ∨ Q ev t) es s ↔
      ArgsMeet lib env P es s ∨ ArgsMeet lib env Q es s)
  | [], _ => (or_self_iff).symm
  | e :: rest, s =>
    Compute.or_after_or_iff (meets_or_iff .read e s) fun _ _ =>
      (Compute.after_congr fun _ u _ => argsMeet_or_iff rest u).trans Compute.after_or_iff

lemma propertiesMeet_or_iff (o : ℕ) : (ps : List (PropertyKey × Expr)) → (s : Store σ) →
    (PropertiesMeet lib env (fun ev t => P ev t ∨ Q ev t) o ps s ↔
      PropertiesMeet lib env P o ps s ∨ PropertiesMeet lib env Q o ps s)
  | [], _ => (or_self_iff).symm
  | (_, e) :: rest, s =>
    Compute.or_after_or_iff (meets_or_iff .read e s) fun _ _ =>
      Compute.or_after_or_iff Iff.rfl fun _ u => propertiesMeet_or_iff o rest u

end

lemma statementsMeet_or_iff (es : List Expr) (s : Store σ) :
    StatementsMeet lib env (fun ev t => P ev t ∨ Q ev t) es s ↔
      StatementsMeet lib env P es s ∨ StatementsMeet lib env Q es s := by
  induction es generalizing s with
  | nil => exact (or_self_iff).symm
  | cons e rest ih => exact Compute.or_after_or_iff (meets_or_iff .read e s) fun _ t => ih t

end Expr

end Or

/-! ## Compiled expressions -/

/-- What a compiled expression is used for: to ask for its value, or to assign one. -/
inductive Use where
  | eval
  | assign (v : Value)

namespace Expression

variable (e : Expression) (lib : Library σ) (context : Value) (locals : Option Value)

/-- A compiled expression is used. -/
def use (n : ℕ) : Use → Compute (Store σ) Value
  | .eval => e.eval lib n context locals
  | .assign v => e.assign lib n context v locals

/-- The use of a compiled expression comes to an effect of this kind. -/
def Meets (P : Effect σ → Store σ → Prop) (s : Store σ) : Use → Prop
  | .eval => Expr.StatementsMeet lib (e.env 0 context locals) P e.body s
  | .assign v => ∃ p, e.target? = some p ∧
    (Expr.PlaceMeets lib (e.env 0 context locals) P .create p s ∨
      After (Expr.locateAt lib (e.env 0 context locals) .create p) s fun loc t =>
        (e.env 0 context locals).StoreMeets P loc v t)

variable {e lib context locals} {P Q : Effect σ → Store σ → Prop} {s : Store σ} {u : Use}

lemma exists_of_meets (h : e.Meets lib context locals P s u) : ∃ ev t, P ev t := by
  cases u with
  | eval => exact Expr.exists_of_statementsMeet h
  | assign v =>
    obtain ⟨p, -, h | ⟨_, _, -, h⟩⟩ := h
    · exact Expr.exists_of_placeMeets h
    · exact h.exists

lemma meets_or_iff : e.Meets lib context locals (fun ev t => P ev t ∨ Q ev t) s u ↔
    e.Meets lib context locals P s u ∨ e.Meets lib context locals Q s u := by
  cases u with
  | eval => exact Expr.statementsMeet_or_iff e.body s
  | assign v =>
    simp only [Meets, ← exists_or, ← and_or_left]
    refine exists_congr fun p => and_congr_right fun _ => ?_
    exact Compute.or_after_or_iff (Expr.placeMeets_or_iff .create p s) fun _ _ =>
      Env.storeMeets_or_iff

end Expression

end DataBinding
