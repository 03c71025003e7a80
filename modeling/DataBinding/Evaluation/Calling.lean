import DataBinding.Store

/-!
# Calling functions

A call goes to the host's function of that name, to the target of a bound function, or to one of
the intrinsics.  Intrinsics and bound functions call other functions in turn, possibly without
end, so a call is made with a bound on the length of such a chain.
-/

namespace DataBinding

variable {σ : Type}

/-- The receiver as a function; `operation` has been called on it. -/
def receiver (operation : Intrinsic) : Value → Compute (Store σ) Callable
  | .function f => pure f
  | v => throw (.evaluation (.receiverNotCallable operation.name v.kind))

/-- The elements of the array among the arguments of `apply`; none if there is no array. -/
def spread (args : List Value) : Compute (Store σ) (List Value) :=
  match args.tail.head? with
  | some (.array a) => Store.reading fun h => (h.items a).toList
  | _ => pure []

/-- Calls a function, with fewer than `limit` functions in between. -/
def Library.invoke (lib : Library σ) : Nat → Callable → Value → List Value → Compute (Store σ) Value
  | 0, _, _, _ => Compute.endless
  | limit + 1, .made f, this, args => do
    match ← Store.reading (·.closure? f) with
    | some (.native name) => lib.call name this args
    | some (.bound _ target this args') => lib.invoke limit target this (args' ++ args)
    | none => return .undefined
  | limit + 1, .intrinsic .call, this, args => do
    let target ← receiver .call this
    lib.invoke limit target (args.head?.getD .undefined) args.tail
  | limit + 1, .intrinsic .apply, this, args => do
    let target ← receiver .apply this
    lib.invoke limit target (args.head?.getD .undefined) (← spread args)
  | _ + 1, .intrinsic .bind, this, args => do
    let target ← receiver .bind this
    let f ← Store.making fun h =>
      h.newFunction (.bound ("bound " ++ h.functionName target) target
        (args.head?.getD .undefined) args.tail)
    return .function (.made f)
  | _ + 1, .intrinsic .functionConstructor, _, _ => throw (.evaluation .sourceCompilation)
  | _ + 1, .intrinsic .objectConstructor, _, args => do
    match args.head? with
    | some v =>
      if v.isContainer then return v
      else return .object (← Store.making (·.newObject .empty none))
    | none => return .object (← Store.making (·.newObject .empty none))

end DataBinding
