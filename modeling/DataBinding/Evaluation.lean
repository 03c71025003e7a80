import DataBinding.Evaluation.Calling
import DataBinding.Evaluation.Guard
import DataBinding.Evaluation.Operator

/-!
# Evaluation

Expressions are evaluated over the store.  A name is looked up in the locals, if they have it, and
else in the context; every value that a name, a member or a call yields passes the guard, and so
does every argument and every value that is assigned.

## Places

`locate` finds the location that a place denotes: the value that holds the member, the member's
name, and its value.  It works in two modes.  To read a place only looks.  To create it also
replaces what is missing on the way to the last member by empty objects, which is how an
assignment to `a.b.c` works in an empty context; the last member itself is left alone.

`eval` takes the same mode for the sake of these intermediates.  For all that is not a place it
makes no difference.
-/

namespace DataBinding

/-- Whether missing intermediates of a place are created. -/
inductive Access where
  | read
  | create
deriving DecidableEq

/-- What an expression is evaluated with.  `callLimit` bounds chains of functions calling
functions. -/
structure Env where
  source : String
  context : Value
  locals : Option Value
  filters : List (String × String)
  callLimit : Nat

/-- A place as it was found: the holder, the name of the member in it, the member's value. -/
structure Location where
  base : Value
  key : String
  value : Value

namespace Location

/-- The value of a location, or an empty object that is put there if the value is missing. -/
def intermediate {σ : Type} (loc : Location) : Compute (Store σ) Value :=
  if loc.value.isNullish && !loc.base.isNullish then do
    let o ← Store.making (·.newObject .empty none)
    Store.changingIf (·.setMember loc.base loc.key (.object o))
    return .object o
  else pure loc.value

end Location

namespace Env

variable {σ : Type} (env : Env)

/-! ## Guards -/

/-- Refuses a forbidden member. -/
def guardMember (key : String) : Compute (Store σ) Unit :=
  if key ∈ forbiddenMembers then throw (.refused (.member key) env.source) else pure ()

/-- Refuses a forbidden value. -/
def guardValue (v : Value) : Compute (Store σ) Unit := do
  match ← Store.reading (·.forbidden? v) with
  | some what => throw (.refused what env.source)
  | none => pure ()

/-- Refuses a function that must not be called. -/
def guardCallee (v : Value) : Compute (Store σ) Unit :=
  match v.uncallable? with
  | some what => throw (.refused what env.source)
  | none => pure ()

/-! ## Places and calls, their parts evaluated -/

/-- What a name is looked up in: the locals if they have it, else the context. -/
def holder (h : Heap) (name : String) : Value :=
  match env.locals with
  | some locals => if h.hasMember locals name then locals else env.context
  | none => env.context

/-- The location of a name. -/
def locateName (name : String) : Compute (Store σ) Location := do
  env.guardMember name
  let base ← Store.reading fun h => env.holder h name
  let value ← Store.reading (·.getMember base name)
  env.guardValue value
  return ⟨base, name, value⟩

/-- The location of a member. -/
def locateMember (access : Access) (base : Value) (key : String) :
    Compute (Store σ) Location := do
  env.guardMember key
  if access = .create then env.guardValue base
  let value ← Store.reading fun h => if base.isNullish then .undefined else h.getMember base key
  env.guardValue value
  return ⟨base, key, value⟩

/-- Writes a location. -/
def store (loc : Location) (v : Value) : Compute (Store σ) Value := do
  env.guardValue v
  Store.changingIf (·.setMember loc.base loc.key v)
  return v

/-- Calls a value.  A missing function yields undefined and its arguments are not evaluated. -/
def call (lib : Library σ) (this callee : Value) (args : Compute (Store σ) (List Value)) :
    Compute (Store σ) Value :=
  if callee.isNullish then pure .undefined
  else do
    env.guardValue this
    env.guardCallee callee
    let args ← args
    match callee with
    | .function f =>
      let result ← lib.invoke env.callLimit f this args
      env.guardValue result
      return result
    | v => throw (.evaluation (.notCallable v.kind env.source))

/-- Applies a filter; `name` stands for the behaviour that was found when compiling. -/
def applyFilter (lib : Library σ) (name : String) (args : List Value) :
    Compute (Store σ) Value :=
  match env.filters.lookup name with
  | some behaviour => lib.filter behaviour args
  | none => throw (.unknownFilter name)

end Env

namespace Expr

variable {σ : Type}

mutual

/-- The value of an expression. -/
def eval (lib : Library σ) (env : Env) (access : Access) : Expr → Compute (Store σ) Value
  | .literal l => pure l.value
  | .this => pure env.context
  | .locals => pure (env.locals.getD .undefined)
  | .array items => do
    let values ← evalList lib env items
    return .array (← Store.making (·.newArray values.toArray))
  | .object properties => do
    let o ← Store.making (·.newObject .empty none)
    evalProperties lib env o properties
    return .object o
  | .place p => do
    let loc ← locate lib env access p
    match access with
    | .read => return loc.value
    | .create => loc.intermediate
  | .call (.place p) args => do
    let loc ← locate lib env .read p
    env.call lib loc.base loc.value (evalArgs lib env args)
  | .call callee args => do
    let f ← eval lib env .read callee
    env.call lib .undefined f (evalArgs lib env args)
  | .filter name input args => do
    let input ← eval lib env .read input
    let args ← evalList lib env args
    env.applyFilter lib name (input :: args)
  | .assign target value => do
    let loc ← locate lib env .create target
    let v ← eval lib env .read value
    env.store loc v
  | .unary op operand => do
    let v ← eval lib env .read operand
    Store.readingEndless (·.unary op v)
  | .binary op left right => do
    let v ← eval lib env .read left
    let w ← eval lib env .read right
    Store.readingEndless (·.binary op v w)
  | .logical .and left right => do
    let v ← eval lib env .read left
    if v.truthy then eval lib env .read right else return v
  | .logical .or left right => do
    let v ← eval lib env .read left
    if v.truthy then return v else eval lib env .read right
  | .conditional test consequent alternate => do
    let v ← eval lib env .read test
    if v.truthy then eval lib env .read consequent else eval lib env .read alternate

/-- The location that a place denotes. -/
def locate (lib : Library σ) (env : Env) (access : Access) : Place → Compute (Store σ) Location
  | .name s => env.locateName s
  | .member base key => do
    let base ← eval lib env access base
    env.locateMember access base key
  | .element base key => do
    let base ← eval lib env access base
    let key ← eval lib env .read key
    env.locateMember access base (← Store.readingEndless (·.text? key))

/-- The values of several expressions, from left to right. -/
def evalList (lib : Library σ) (env : Env) : List Expr → Compute (Store σ) (List Value)
  | [] => pure []
  | e :: rest => do
    let v ← eval lib env .read e
    return v :: (← evalList lib env rest)

/-- The values of the arguments of a call, each guarded before the next is evaluated. -/
def evalArgs (lib : Library σ) (env : Env) : List Expr → Compute (Store σ) (List Value)
  | [] => pure []
  | e :: rest => do
    let v ← eval lib env .read e
    env.guardValue v
    return v :: (← evalArgs lib env rest)

/-- Writes the properties of an object literal. -/
def evalProperties (lib : Library σ) (env : Env) (o : Nat) :
    List (PropertyKey × Expr) → Compute (Store σ) Unit
  | [] => pure ()
  | (key, e) :: rest => do
    let v ← eval lib env .read e
    Store.changing (·.setOwn o key.text v)
    evalProperties lib env o rest

end

/-- Runs statements one after another and yields the value of the last. -/
def evalStatements (lib : Library σ) (env : Env) (last : Value) :
    List Expr → Compute (Store σ) Value
  | [] => pure last
  | e :: rest => do
    let v ← eval lib env .read e
    evalStatements lib env v rest

end Expr

end DataBinding
