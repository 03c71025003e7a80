import DataBinding.Proofs.Occurrences

/-!
# What is called

What the guards ensure of a function that a call expression calls, at the moment when it is called
(`Expression.invokes_guarded`).  It is none of `call`, `apply`, `bind` and the constructor that
compiles text.  It is the constructor of objects only if the callee hands on a value that no guard
sees, since the guard of callees lets that constructor pass.

The receiver and the arguments are guarded one by one as they are evaluated, and not again when all
of them are there.  So an argument that has passed can be what the guard refuses by the time of the
call, if the operands after it change a member that the guard looks at (`calls_of_refused`).
-/

namespace DataBinding

open Compute (Ends Rising rising_const runOn)

variable {σ : Type}

/-! ## Callees -/

/-- The callee hands on a value that no guard has seen: `this`, `$locals`, the result of a filter,
or one of these by a logical operator or a choice. -/
def Expr.HandsOver : Expr → Prop
  | .this | .locals | .filter .. => True
  | .logical .and _ right => right.HandsOver
  | .logical .or left right => left.HandsOver ∨ right.HandsOver
  | .conditional _ consequent alternate => consequent.HandsOver ∨ alternate.HandsOver
  | _ => False

variable {lib : Library σ} {env : Env}

/-- The value is not the constructor of objects. -/
def Value.NoConstructor (v : Value) : Prop := v ≠ .function (.intrinsic .objectConstructor)

namespace Value

lemma noConstructor_of_accepted {h : Heap} {v : Value} (hv : h.forbidden? v = none) :
    v.NoConstructor := by
  rintro rfl
  cases hv

lemma noConstructor_of_plain {v : Value} (hv : v.isContainer = false) : v.NoConstructor := by
  rintro rfl
  cases hv

end Value

namespace Env

variable {s t : Store σ} {v : Value} {n : ℕ}

/-- What is assigned has passed the guard. -/
lemma noConstructor_of_store {loc : Location} {w : Value}
    (h : runOn (env.store loc v) s = some (.ok w, t)) : w.NoConstructor := by
  obtain ⟨_, u, hguard, h⟩ := Compute.runOn_bind_ok_cases h
  obtain ⟨_, u', -, h⟩ := Compute.runOn_bind_ok_cases h
  cases h
  exact Value.noConstructor_of_accepted (accepted_of_runOn_guardValue hguard).1

/-- What a call yields has passed the guard. -/
lemma noConstructor_of_call {this f : Value} {args : Compute (Store σ) (List Value)}
    (h : runOn (env.call lib this f args) s = some (.ok v, t)) : v.NoConstructor := by
  cases hf : f.isNullish with
  | true =>
    rw [call, if_pos hf] at h
    cases h
    exact Value.noConstructor_of_plain rfl
  | false =>
    rw [env.call_eq lib hf] at h
    obtain ⟨_, u, -, h⟩ := Compute.runOn_bind_ok_cases h
    obtain ⟨_, u, -, h⟩ := Compute.runOn_bind_ok_cases h
    obtain ⟨vs, u, -, h⟩ := Compute.runOn_bind_ok_cases h
    cases f with
    | function g =>
      obtain ⟨result, u, -, h⟩ := Compute.runOn_bind_ok_cases h
      obtain ⟨_, u, hguard, h⟩ := Compute.runOn_bind_ok_cases h
      cases h
      exact Value.noConstructor_of_accepted (accepted_of_runOn_guardValue hguard).1
    | _ => cases h

end Env

namespace Expr

/-- Only a callee that hands a value over yields the constructor of objects. -/
lemma noConstructor_of_eval : (e : Expr) → ¬ e.HandsOver → {n : ℕ} → {s t : Store σ} → {v : Value} →
    runOn (evalAt lib env .read e n) s = some (.ok v, t) → v.NoConstructor
  | .this, he, _, _, _, _, _ | .locals, he, _, _, _, _, _ | .filter .., he, _, _, _, _, _ =>
    (he trivial).elim
  | .literal l, _, _, _, _, _, h => by
    cases h
    cases l <;> nofun
  | .array items, _, n, s, t, v, h => by
    obtain ⟨vs, u, -, h⟩ := Compute.runOn_bind_ok_cases h
    cases h
    nofun
  | .object properties, _, n, s, t, v, h => by
    obtain ⟨o, u, -, h⟩ := Compute.runOn_bind_ok_cases h
    obtain ⟨_, u, -, h⟩ := Compute.runOn_bind_ok_cases h
    cases h
    nofun
  | .place p, _, n, s, t, v, h => by
    obtain ⟨loc, u, hrun, h⟩ := Compute.runOn_bind_ok_cases h
    cases h
    exact Value.noConstructor_of_accepted (located_of_locate hrun).accepted
  | .call callee args, _, n, s, t, v, h => by
    cases callee with
    | place p =>
      obtain ⟨loc, u, -, h⟩ := Compute.runOn_bind_ok_cases h
      exact Env.noConstructor_of_call h
    | _ =>
      obtain ⟨f, u, -, h⟩ := Compute.runOn_bind_ok_cases h
      exact Env.noConstructor_of_call h
  | .assign target value, _, n, s, t, v, h => by
    obtain ⟨loc, u, -, h⟩ := Compute.runOn_bind_ok_cases h
    obtain ⟨w, u, -, h⟩ := Compute.runOn_bind_ok_cases h
    exact Env.noConstructor_of_store h
  | .unary op operand, _, n, s, t, v, h => by
    obtain ⟨w, u, -, h⟩ := Compute.runOn_bind_ok_cases h
    obtain ⟨x, hx, hend⟩ := Option.map_eq_some_iff.1 h
    cases hend
    exact Value.noConstructor_of_plain (Heap.isContainer_of_unary hx)
  | .binary op left right, _, n, s, t, v, h => by
    obtain ⟨w, u, -, h⟩ := Compute.runOn_bind_ok_cases h
    obtain ⟨w', u', -, h⟩ := Compute.runOn_bind_ok_cases h
    obtain ⟨x, hx, hend⟩ := Option.map_eq_some_iff.1 h
    cases hend
    exact Value.noConstructor_of_plain (Heap.isContainer_of_binary hx)
  | .logical .and left right, he, n, s, t, v, h => by
    obtain ⟨w, u, -, h⟩ := Compute.runOn_bind_ok_cases h
    split at h
    · exact noConstructor_of_eval right he h
    · next hw =>
      cases h
      rintro rfl
      exact hw rfl
  | .logical .or left right, he, n, s, t, v, h => by
    obtain ⟨w, u, hleft, h⟩ := Compute.runOn_bind_ok_cases h
    split at h
    · cases h
      exact noConstructor_of_eval left (fun hl => he (.inl hl)) hleft
    · exact noConstructor_of_eval right (fun hr => he (.inr hr)) h
  | .conditional test consequent alternate, he, n, s, t, v, h => by
    obtain ⟨w, u, -, h⟩ := Compute.runOn_bind_ok_cases h
    split at h
    · exact noConstructor_of_eval consequent (fun hc => he (.inl hc)) h
    · exact noConstructor_of_eval alternate (fun ha => he (.inr ha)) h

/-! ## Operands -/

/-- The first operand is evaluated and passes the guard, and then the others are evaluated. -/
lemma ends_evalArgs_cons_iff {e : Expr} {rest : List Expr} {s w : Store σ} {vs : List Value} :
    Ends (evalArgsAt lib env (e :: rest)) s (.ok vs) w ↔
      ∃ v t vs', vs = v :: vs' ∧ Ends (evalAt lib env .read e) s (.ok v) t ∧
        t.heap.forbidden? v = none ∧ Ends (evalArgsAt lib env rest) t (.ok vs') w := by
  constructor
  · rintro ⟨n, h⟩
    obtain ⟨v, t, hv, h⟩ := Compute.runOn_bind_ok_cases h
    obtain ⟨_, u, hguard, h⟩ := Compute.runOn_bind_ok_cases h
    obtain ⟨vs', u', hvs, h⟩ := Compute.runOn_bind_ok_cases h
    cases h
    obtain ⟨haccepted, rfl⟩ := Env.accepted_of_runOn_guardValue hguard
    exact ⟨v, u, vs', rfl, ⟨n, hv⟩, haccepted, n, hvs⟩
  · rintro ⟨v, t, vs', rfl, hv, haccepted, hvs⟩
    have hargs : ∀ v : Value, Rising fun n => evalArgsAt lib env rest n >>= fun vs =>
        (pure (v :: vs) : Compute (Store σ) (List Value)) :=
      fun v => (rising_evalArgsAt lib env rest).bind fun vs => rising_const _
    have hguard : ∀ v : Value, Rising fun n => env.guardValue v >>= fun _ =>
        evalArgsAt lib env rest n >>= fun vs =>
          (pure (v :: vs) : Compute (Store σ) (List Value)) :=
      fun v => (rising_const _).bind fun _ => hargs v
    refine hv.bind (rising_evalAt lib env .read e) hguard ?_
    refine (Compute.ends_bind_iff (rising_const (env.guardValue v)) fun _ => hargs v).2
      (Env.after_guardValue_iff.2 ?_)
    exact ⟨haccepted, hvs.bind (rising_evalArgsAt lib env rest) (fun _ => rising_const _) ⟨0, rfl⟩⟩

/-- Each argument has passed the guard between the evaluation of the operands up to its own and the
evaluation of those after it. -/
lemma passed_of_evalArgs {operands : List Expr} {s w : Store σ} {vs : List Value}
    (h : Ends (evalArgsAt lib env operands) s (.ok vs) w) {k : ℕ} {v : Value}
    (hv : vs[k]? = some v) :
    ∃ u, Ends (evalArgsAt lib env (operands.take (k + 1))) s (.ok (vs.take (k + 1))) u ∧
      u.heap.forbidden? v = none ∧
      Ends (evalArgsAt lib env (operands.drop (k + 1))) u (.ok (vs.drop (k + 1))) w := by
  induction operands generalizing s vs k with
  | nil =>
    cases Compute.ends_const_iff.1 h
    cases hv
  | cons e rest ih =>
    obtain ⟨x, t, xs, rfl, hx, haccepted, hrest⟩ := ends_evalArgs_cons_iff.1 h
    cases k with
    | zero =>
      cases hv
      exact ⟨t, ends_evalArgs_cons_iff.2 ⟨v, t, [], rfl, hx, haccepted, 0, rfl⟩, haccepted, hrest⟩
    | succ k =>
      obtain ⟨u, htake, hu, hdrop⟩ := ih hrest hv
      exact ⟨u, ends_evalArgs_cons_iff.2 ⟨x, t, _, rfl, hx, haccepted, htake⟩, hu, hdrop⟩

/-- A callee that hands nothing over does not yield the constructor of objects. -/
lemma noConstructor_of_finds {e : Expr} (he : ¬ e.HandsOver) {s t : Store σ} {this : Value}
    {f : Callable} (h : e.Finds lib env s this f t) : (Value.function f).NoConstructor := by
  cases e with
  | place p =>
    obtain ⟨key, n, hrun⟩ := h
    exact Value.noConstructor_of_accepted (located_of_locate hrun).accepted
  | _ =>
    obtain ⟨-, n, hrun⟩ := h
    exact noConstructor_of_eval _ he hrun

end Expr

/-! ## The guards of a call -/

/-- What the guards ensure of a call at the moment when it is made.  The function is none of those
that rebind a receiver or compile text, and it is the constructor of objects only if the callee
hands a value over.  The receiver and each argument has passed the guard when it had been evaluated;
if it would not pass any more, then it is an object, and a member that the guard looks at has
changed while the operands after it were evaluated. -/
structure FunctionCall.Guarded (lib : Library σ) (env : Env) (c : FunctionCall σ) (w : Store σ) :
    Prop where
  callable : ∀ operation ∈ [Intrinsic.call, .apply, .bind, .functionConstructor],
    c.function ≠ .intrinsic operation
  handed : c.function = .intrinsic .objectConstructor → c.callee.HandsOver
  passed : ∀ k v, (c.this :: c.args)[k]? = some v →
    ∃ u, Ends (Expr.evalArgsAt lib env (c.operands.take k)) c.found (.ok (c.args.take k)) u ∧
      u.heap.forbidden? v = none ∧
      Ends (Expr.evalArgsAt lib env (c.operands.drop k)) u (.ok (c.args.drop k)) w ∧
      (w.heap.forbidden? v = none ∨
        ∃ o, v = .object o ∧ ∃ key ∈ Heap.telltaleMembers, u.heap.get o key ≠ w.heap.get o key)

namespace FunctionCall

/-- A value that the guard lets pass in one heap and not in another is an object with another value
of a member that the guard looks at. -/
lemma accepted_or_changed {h k : Heap} {v : Value} (hv : h.forbidden? v = none) :
    k.forbidden? v = none ∨
      ∃ o, v = .object o ∧ ∃ key ∈ Heap.telltaleMembers, h.get o key ≠ k.get o key := by
  by_contra hnone
  rw [not_or] at hnone
  refine hnone.1 ((Heap.forbidden?_eq_of_telltales fun o ho key hkey => ?_).trans hv)
  by_contra hne
  exact hnone.2 ⟨o, ho, key, hkey, Ne.symm hne⟩

lemma Prepared.guarded {c : FunctionCall σ} {w : Store σ} (hc : c.Prepared lib env w) :
    c.Guarded lib env w where
  callable := by
    have hcallable := hc.callable
    intro operation hoperation heq
    rw [heq] at hcallable
    revert hcallable hoperation
    cases operation <;> decide
  handed := by
    intro hobject
    obtain ⟨s, hfinds⟩ := hc.callee
    by_contra hnot
    refine Expr.noConstructor_of_finds hnot hfinds (congrArg Value.function hobject)
  passed := by
    intro k v hv
    cases k with
    | zero =>
      cases hv
      exact ⟨c.found, ⟨0, rfl⟩, hc.receiver, hc.operands, accepted_or_changed hc.receiver⟩
    | succ k =>
      obtain ⟨u, htake, hu, hdrop⟩ := Expr.passed_of_evalArgs hc.operands hv
      exact ⟨u, htake, hu, hdrop, accepted_or_changed hu⟩

end FunctionCall

namespace Expression

variable (e : Expression) (lib : Library σ) {context : Value} {locals : Option Value}
  {s w : Store σ} {c : FunctionCall σ}

/-- The use of a compiled expression comes to a call. -/
def Invokes (context : Value) (locals : Option Value) (s : Store σ) (u : Use) (c : FunctionCall σ)
    (w : Store σ) : Prop :=
  e.Meets lib context locals (fun ev t => ev = .call c ∧ t = w) s u

variable {e lib}

/-- The guards hold for every call that an expression comes to. -/
theorem invokes_guarded {u : Use} (h : e.Invokes lib context locals s u c w) :
    c.Guarded lib (e.env 0 context locals) w := by
  obtain ⟨ev, t, ⟨rfl, rfl⟩, hdue⟩ := due_of_meets h
  exact FunctionCall.Prepared.guarded hdue

end Expression

/-! ## Calls that are guarded too early -/

/-- In the context are a function `f` of the host and an empty object `o`. -/
def handStore : Store Unit where
  heap := {
    arrays := #[]
    objects := #[⟨⟨[("f", .function (.made 0)), ("o", .object 1)]⟩, none⟩, ⟨.empty, none⟩]
    closures := #[.native "f"] }
  host := ()

namespace Expression

/-- The function is called with the object. -/
def handOut : Expression :=
  ⟨"f(o)", [.call (.place (.name "f")) [.place (.name "o")]], [], false⟩

/-- The call that comes of it. -/
def handCall : FunctionCall Unit :=
  ⟨.place (.name "f"), [.place (.name "o")], handStore, .made 0, .object 0, [.object 1]⟩

theorem handOut_guarded :
    handOut.Invokes .idle (.object 0) none handStore .eval handCall handStore ∧
    handCall.Guarded .idle (handOut.env 0 (.object 0) none) handStore := by
  have h : handOut.Invokes .idle (.object 0) none handStore .eval handCall handStore := by
    refine .inl (.inr ⟨⟨.object 0, "f", .function (.made 0)⟩, handStore, ⟨0, by cbv⟩, rfl, ?_⟩)
    rw [Env.after_guardValue_iff, Env.after_guardCallee_iff]
    exact ⟨by cbv, rfl, .inr ⟨[.object 1], handStore, ⟨0, by cbv⟩, .made 0, rfl, rfl, rfl⟩⟩
  exact ⟨h, invokes_guarded h⟩

/-- The function is called with the object, and by then the object is its own window. -/
def lateWindow : Expression :=
  ⟨"f(o, !(o.window = o))", [.call (.place (.name "f")) [.place (.name "o"),
    .unary .not (.assign (.member (.place (.name "o")) "window") (.place (.name "o")))]], [], false⟩

/-- The call that comes of it. -/
def lateCall : FunctionCall Unit :=
  ⟨.place (.name "f"), [.place (.name "o"), .unary .not (.assign (.member (.place (.name "o"))
    "window") (.place (.name "o")))], handStore, .made 0, .object 0, [.object 1, .bool false]⟩

/-- The context is called. -/
def callThis : Expression := ⟨"this()", [.call .this []], [], false⟩

/-- The call that comes of it, if the context is the constructor of objects. -/
def constructorCall : FunctionCall Unit :=
  ⟨.this, [], handStore, .intrinsic .objectConstructor, .undefined, []⟩

/-- A function is called with an object that has become its own window since the guard let it pass,
and the constructor of objects is called because it is `this`. -/
theorem calls_of_refused :
    (compile .empty "f(o, !(o.window = o))" false = .ok lateWindow ∧
      ∃ w, lateWindow.Invokes .idle (.object 0) none handStore .eval lateCall w ∧
        ∃ v ∈ lateCall.args, w.heap.forbidden? v = some .window) ∧
    compile .empty "this()" false = .ok callThis ∧
      ∃ w, callThis.Invokes .idle (.function (.intrinsic .objectConstructor)) none handStore
        .eval constructorCall w ∧ constructorCall.function = .intrinsic .objectConstructor := by
  refine ⟨⟨by cbv, ⟨handStore.heap.setOwn 1 "window" (.object 1), ()⟩, ?_, .object 1, .head _,
    by cbv⟩, by cbv, handStore, ?_, rfl⟩
  · refine .inl (.inr ⟨⟨.object 0, "f", .function (.made 0)⟩, handStore, ⟨0, by cbv⟩, rfl, ?_⟩)
    rw [Env.after_guardValue_iff, Env.after_guardCallee_iff]
    exact ⟨by cbv, rfl, .inr ⟨_, _, ⟨0, by cbv⟩, .made 0, rfl, rfl, rfl⟩⟩
  · refine .inl (.inr ⟨.function (.intrinsic .objectConstructor), handStore, ⟨0, rfl⟩, rfl, ?_⟩)
    rw [Env.after_guardValue_iff, Env.after_guardCallee_iff]
    exact ⟨rfl, rfl, .inr ⟨[], handStore, ⟨0, rfl⟩, _, rfl, rfl, rfl⟩⟩

end Expression

end DataBinding
