import DataBinding.Proofs.Hanging

/-!
# When an evaluation returns

If all functions and filters of the host return, then an evaluation or an assignment returns just if
nothing that it comes to goes round (`Expression.returns_iff`).  Two things can go round: a
conversion, where the value is an array from which one comes to an array that contains itself, and a
call, where a bound function, `call` or `apply` goes on to other functions for ever
(`Effect.GoesRound`).  Neither is looked for when an expression is evaluated, and there are stores
in which each of them happens (`round_endless`).
-/

namespace DataBinding

open Compute (Endless Ends runOn)
open Relation (ReflTransGen)

variable {σ : Type}

/-! ## Chains of functions -/

/-- A function with the receiver and the arguments that it is called with. -/
structure Application where
  function : Callable
  this : Value
  args : List Value

/-- Where a call goes: to a function of the host, or on to another call. -/
inductive Destination where
  | host (name : String)
  | on (a : Application)

namespace Heap

/-- Where a call goes.  A bound function goes on to its target, `call` and `apply` go on to their
receiver; the other intrinsics go nowhere, and neither does what cannot be called. -/
def destination? (h : Heap) (a : Application) : Option Destination :=
  match a.function, a.this with
  | .made f, _ => (h.closure? f).map fun
    | .native name => .host name
    | .bound _ target this args => .on ⟨target, this, args ++ a.args⟩
  | .intrinsic .call, .function g => some (.on ⟨g, a.args.head?.getD .undefined, a.args.tail⟩)
  | .intrinsic .apply, .function g =>
    some (.on ⟨g, a.args.head?.getD .undefined,
      match a.args.tail.head? with
      | some (.array items) => (h.items items).toList
      | _ => []⟩)
  | _, _ => none

/-- The first call goes on to the second one. -/
def Forwards (h : Heap) (a b : Application) : Prop := h.destination? a = some (.on b)

end Heap

namespace Library

variable (lib : Library σ) {a b : Application} {s : Store σ} {n : ℕ}

/-- The call comes to a function of the host that does not return. -/
def Stalls (a : Application) (s : Store σ) : Prop :=
  ∃ b name, ReflTransGen s.heap.Forwards a b ∧ s.heap.destination? b = some (.host name) ∧
    runOn (lib.call name b.this b.args) s = none

lemma runOn_spread (args : List Value) (s : Store σ) : runOn (spread args) s =
    some (.ok (match args.tail.head? with
      | some (.array a) => (s.heap.items a).toList
      | _ => []), s) := by
  unfold spread
  rcases args.tail.head? with _ | v
  · rfl
  · cases v <;> rfl

/-- A call goes to its destination, if it has one, and else has an end. -/
lemma runOn_invoke_succ (a : Application) (s : Store σ) :
    match s.heap.destination? a with
    | some (.host name) => runOn (lib.invoke (n + 1) a.function a.this a.args) s =
        runOn (lib.call name a.this a.args) s
    | some (.on b) => runOn (lib.invoke (n + 1) a.function a.this a.args) s =
        runOn (lib.invoke n b.function b.this b.args) s
    | none => runOn (lib.invoke (n + 1) a.function a.this a.args) s ≠ none := by
  obtain ⟨function, this, args⟩ := a
  cases function with
  | made f =>
    simp only [Heap.destination?, invoke]
    rw [Compute.runOn_bind_of_ok (Store.runOn_reading (·.closure? f) s)]
    rcases s.heap.closure? f with _ | _ | _
    · exact Option.some_ne_none _
    · rfl
    · rfl
  | intrinsic operation =>
    cases operation with
    | call =>
      cases this with
      | function g => rfl
      | _ => exact Option.some_ne_none _
    | apply =>
      cases this with
      | function g =>
        refine (Compute.runOn_bind_of_ok (a := g) (u := s) rfl).trans ?_
        exact Compute.runOn_bind_of_ok (runOn_spread args s)
      | _ => exact Option.some_ne_none _
    | bind =>
      cases this <;> exact Option.some_ne_none _
    | functionConstructor => exact Option.some_ne_none _
    | objectConstructor =>
      simp only [Heap.destination?, invoke]
      rcases args.head? with _ | v
      · exact Option.some_ne_none _
      · cases v <;> exact Option.some_ne_none _

lemma stalls_iff : lib.Stalls a s ↔
    (∃ name, s.heap.destination? a = some (.host name) ∧
      runOn (lib.call name a.this a.args) s = none) ∨
    ∃ b, s.heap.Forwards a b ∧ lib.Stalls b s := by
  constructor
  · rintro ⟨c, name, hreach, hc⟩
    rcases hreach.cases_head with rfl | ⟨b, hb, hreach⟩
    · exact .inl ⟨name, hc⟩
    · exact .inr ⟨b, hb, c, name, hreach, hc⟩
  · rintro (⟨name, ha⟩ | ⟨b, hb, c, name, hreach, hc⟩)
    · exact ⟨a, name, .refl, ha⟩
    · exact ⟨c, name, .head hb hreach, hc⟩

/-- With a limit a call has no end just if it goes on to that many other calls, or comes to a
function of the host that does not return. -/
lemma runOn_invoke_eq_none_iff : runOn (lib.invoke n a.function a.this a.args) s = none ↔
    Way s.heap.Forwards (fun _ => True) n a ∨ lib.Stalls a s := by
  induction n generalizing a with
  | zero => exact iff_of_true rfl (.inl (.here trivial))
  | succ n ih =>
    have hrun := lib.runOn_invoke_succ (n := n) a s
    have hforwards : ∀ b, s.heap.Forwards a b ↔ s.heap.destination? a = some (.on b) :=
      fun _ => Iff.rfl
    rw [Way.succ_iff, lib.stalls_iff]
    simp only [hforwards]
    cases ha : s.heap.destination? a with
    | none =>
      rw [ha] at hrun
      simpa using hrun
    | some d =>
      cases d with
      | host name =>
        rw [ha] at hrun
        simp [hrun]
      | on b =>
        rw [ha] at hrun
        simpa [hrun] using ih

/-- A call has no end just if it goes on to other calls for ever, or comes to a function of the host
that does not return. -/
theorem endless_invoke_iff : Endless (fun n => lib.invoke n a.function a.this a.args) s ↔
    (∀ n, Way s.heap.Forwards (fun _ => True) n a) ∨ lib.Stalls a s := by
  simp only [Endless, runOn_invoke_eq_none_iff, forall_or_right]

end Library

/-! ## What has no end -/

namespace Effect

/-- The values that are converted to a text or to a number in an effect. -/
def converted : Effect σ → List Value
  | .text key => [key]
  | .unary op v => op.converted v
  | .binary op v w => op.converted v w
  | .write (.array _) key v => if key = "length" then [v] else []
  | _ => []

/-- A function of the host or a filter is called and does not return. -/
def Stalls (lib : Library σ) : Effect σ → Store σ → Prop
  | .call c, s => lib.Stalls ⟨c.function, c.this, c.args⟩ s
  | .filter behaviour args, s => runOn (lib.filter behaviour args) s = none
  | _, _ => False

/-- A value is converted from which one comes to an array that contains itself, or a function is
called that goes on to other functions for ever. -/
def GoesRound : Effect σ → Store σ → Prop
  | .call c, s => ∀ n, Way s.heap.Forwards (fun _ => True) n ⟨c.function, c.this, c.args⟩
  | ev, s => ∃ v ∈ ev.converted, Loops s.heap.Lists v

variable {lib : Library σ} {ev : Effect σ} {s : Store σ}

/-- What has no end waits for the host or goes round. -/
lemma hangs_iff : ev.Hangs lib s ↔ ev.Stalls lib s ∨ ev.GoesRound s := by
  cases ev with
  | call c => exact (lib.endless_invoke_iff (a := ⟨c.function, c.this, c.args⟩)).trans or_comm
  | filter behaviour args => simp [Hangs, Stalls, GoesRound, converted]
  | text key => simp [Hangs, Stalls, GoesRound, converted, Heap.text?_eq_none_iff]
  | unary op v => simp [Hangs, Stalls, GoesRound, converted, Heap.unary_eq_none_iff]
  | binary op v w => simp [Hangs, Stalls, GoesRound, converted, Heap.binary_eq_none_iff]
  | write base key v =>
    simp only [Hangs, Heap.setMember_eq_none_iff, Stalls, GoesRound, false_or]
    cases base <;> simp [converted, Heap.IsArray]
  | property => simp [Hangs, Stalls, GoesRound, converted]

end Effect

/-! ## Evaluations that return -/

/-- In the context are an array `a` that holds `apply` and itself, an empty array `b`, `apply` as
`g`, and as `f` the function `apply` bound to itself. -/
def roundStore : Store Unit where
  heap := {
    arrays := #[#[.function (.intrinsic .apply), .array 0], #[]]
    objects := #[⟨⟨[("a", .array 0), ("b", .array 1), ("g", .function (.intrinsic .apply)),
      ("f", .function (.made 0))]⟩, none⟩]
    closures := #[.bound "bound apply" (.intrinsic .apply) (.function (.intrinsic .apply)) []] }
  host := ()

namespace Expression

/-- If every function of the host and every filter that is called returns, then the use of a
compiled expression ends just if nothing that it comes to goes round. -/
theorem returns_iff (e : Expression) (lib : Library σ) (context : Value) (locals : Option Value)
    (s : Store σ) (u : Use) (hreturns : ¬ e.Meets lib context locals (Effect.Stalls lib) s u) :
    (∃ r t, Ends (fun n => e.use lib context locals n u) s r t) ↔
      ¬ e.Meets lib context locals Effect.GoesRound s u := by
  have hhangs : Effect.Hangs lib = fun ev t => ev.Stalls lib t ∨ ev.GoesRound t :=
    funext fun ev => funext fun t => propext Effect.hangs_iff
  rw [← Compute.not_endless_iff, endless_use_iff, hhangs, meets_or_iff, or_iff_right hreturns]

/-- The empty array `b` as a number. -/
def emptyNumber : Expression := ⟨"+b", [.unary .plus (.place (.name "b"))], [], false⟩

/-- To convert the array is all that the evaluation comes to. -/
lemma meets_emptyNumber {P : Effect Unit → Store Unit → Prop}
    (h : emptyNumber.Meets .idle (.object 0) none P roundStore .eval) :
    P (.unary .plus (.array 1)) roundStore := by
  have hrun : ∀ n, runOn (Expr.evalAt .idle (emptyNumber.env 0 (.object 0) none) .read
      (.place (.name "b")) n) roundStore = some (.ok (.array 1), roundStore) := fun n => by cbv
  rcases h with ((h | ⟨_, _, _, h, _⟩) | h) | ⟨_, _, _, h⟩
  · exact h.elim
  · cases h
  · exact (Compute.after_iff_of_run hrun).1 h
  · exact h.elim

theorem returns_emptyNumber :
    ¬ emptyNumber.Meets .idle (.object 0) none (Effect.Stalls .idle) roundStore .eval ∧
    ∃ r t, Ends (fun n => emptyNumber.use .idle (.object 0) none n .eval) roundStore r t := by
  have hreturns : ¬ emptyNumber.Meets .idle (.object 0) none (Effect.Stalls .idle) roundStore
      .eval := meets_emptyNumber
  refine ⟨hreturns, (returns_iff _ _ _ _ _ _ hreturns).2 fun hround => ?_⟩
  obtain ⟨v, hv, hloops⟩ := meets_emptyNumber hround
  obtain rfl := List.mem_singleton.1 hv
  obtain ⟨w, ⟨a, ha, hw⟩, -⟩ := hloops.step
  cases ha
  cases hw

end Expression

/-! ## Evaluations that go round -/

/-- The array holds itself. -/
lemma roundStore_loops : Loops roundStore.heap.Lists (.array 0) :=
  ⟨.array 0, .refl, .single ⟨0, rfl, .tail _ (.head _)⟩⟩

/-- The function applies `apply` to the array, which is to apply `apply` to the array. -/
lemma roundStore_forwards (n : ℕ) : Way roundStore.heap.Forwards (fun _ => True) n
    ⟨.made 0, .object 0, [.function (.intrinsic .apply), .array 0]⟩ := by
  let again : Application := ⟨.intrinsic .apply, .function (.intrinsic .apply),
    [.function (.intrinsic .apply), .array 0]⟩
  have hagain : roundStore.heap.Forwards again again := rfl
  have hloops : Loops roundStore.heap.Forwards
      ⟨.made 0, .object 0, [.function (.intrinsic .apply), .array 0]⟩ :=
    ⟨again, .single rfl, .single hagain⟩
  exact hloops.way (fun _ _ _ => trivial) n

/-- Although all functions of the host and all filters return, an evaluation has no end if it
converts an array that holds itself, or if it calls a function that goes on to `apply` for ever. -/
theorem round_endless :
    (∀ name this args s, runOn (Library.idle.call name this args) s ≠ none) ∧
    (∀ behaviour args s, runOn (Library.idle.filter behaviour args) s ≠ none) ∧
    (∃ e, Expression.compile .empty "+a" false = .ok e ∧
      Endless (fun n => e.use .idle (.object 0) none n .eval) roundStore) ∧
    ∃ e, Expression.compile .empty "f(g, a)" false = .ok e ∧
      Endless (fun n => e.use .idle (.object 0) none n .eval) roundStore := by
  refine ⟨nofun, nofun, ?_, ?_⟩
  · refine ⟨⟨"+a", [.unary .plus (.place (.name "a"))], [], false⟩, by cbv, ?_⟩
    rw [Expression.endless_use_iff]
    refine .inl (.inr ⟨.array 0, roundStore, ⟨0, by cbv⟩, ?_⟩)
    exact Heap.unary_eq_none_iff.2 ⟨.array 0, .head _, roundStore_loops⟩
  · refine ⟨⟨"f(g, a)", [.call (.place (.name "f")) [.place (.name "g"), .place (.name "a")]], [],
      false⟩, by cbv, ?_⟩
    rw [Expression.endless_use_iff]
    refine .inl (.inr ⟨⟨.object 0, "f", .function (.made 0)⟩, roundStore, ⟨0, by cbv⟩, rfl, ?_⟩)
    rw [Env.after_guardValue_iff, Env.after_guardCallee_iff]
    refine ⟨by cbv, rfl, .inr ⟨_, roundStore, ⟨0, by cbv⟩, .made 0, rfl, ?_⟩⟩
    exact Library.endless_invoke_iff _ |>.2 (.inl roundStore_forwards)

end DataBinding
