import DataBinding.Evaluation
import DataBinding.Expr.Arena

/-!
# Evaluation of numbered nodes

The evaluation of a program that is given by its arena: it goes from number to number and reads what
a node is when it comes to it.  What a number leads to can be wrong in ways that a tree rules out;
each of them is a fault of its own, apart from the errors that evaluation ends with.

An arena can lead back to where it came from, and then there is no end: the evaluation goes down no
more than a given number of levels.  Where every part comes before what it is a part of, as many
levels as there are nodes are enough.
-/

namespace DataBinding

namespace NodeKind

/-- The numbers of the parts. -/
def children : NodeKind → List Nat
  | .program body => body
  | .array items => items
  | .object properties => properties
  | .property _ value => [value]
  | .member base key _ => [base, key]
  | .call callee args _ => callee :: args
  | .assignment target value => [target, value]
  | .unary _ operand => [operand]
  | .binary _ left right => [left, right]
  | .logical _ left right => [left, right]
  | .conditional test consequent alternate => [test, consequent, alternate]
  | .literal _ | .identifier _ | .this | .locals => []

/-- What a node is called. -/
def noun : NodeKind → String
  | .program _ => "a program"
  | .literal _ => "a literal"
  | .array _ => "an array literal"
  | .object _ => "an object literal"
  | .property .. => "a property"
  | .identifier _ => "an identifier"
  | .this => "`this`"
  | .locals => "`$locals`"
  | .member .. => "a member expression"
  | .call .. => "a call"
  | .assignment .. => "an assignment"
  | .unary .. => "a unary expression"
  | .binary .. => "a binary expression"
  | .logical .. => "a logical expression"
  | .conditional .. => "a conditional"

end NodeKind

/-- What can be wrong with the nodes. -/
inductive NodeFault where
  | outside (id : Nat)
  | notAssignable (noun : String)
  | noPropertyName (noun : String)
  | unknownFilter (name : String)
deriving DecidableEq, Repr

def NodeFault.message : NodeFault → String
  | .outside id => s!"no node {id}"
  | .notAssignable noun => s!"evaluation error: {noun} is not an assignable location"
  | .noPropertyName noun => s!"evaluation error: expected a property name, found {noun}"
  | .unknownFilter name => s!"unknown filter `{name}`"

/-- The evaluation of nodes, which may stop at a fault. -/
abbrev Walk (σ α : Type) : Type := ExceptT NodeFault (Compute (Store σ)) α

namespace Walk

variable {σ α : Type}

/-- What evaluation does. -/
def lift (m : Compute (Store σ) α) : Walk σ α := ExceptT.lift m

/-- Stops at a fault. -/
def fault (f : NodeFault) : Walk σ α := throw f

end Walk

namespace Arena

variable {σ : Type} (a : Arena)

/-- What the node of a number is. -/
def kindAt (id : Nat) : Walk σ NodeKind :=
  match a.nodes[id]? with
  | some node => pure node.kind
  | none => .fault (.outside id)

/-- The name that a node gives to a member or a filter. -/
def propertyName (id : Nat) : Walk σ String := do
  match ← a.kindAt id with
  | .identifier name => return name
  | other => .fault (.noPropertyName other.noun)

/-! ## The parts of a node

These leave it to `eval` how a part is evaluated, on the way to a member that is written or
otherwise.
-/

section Parts

variable (env : Env) (eval : Access → Nat → Walk σ Value)

/-- The location that a node denotes. -/
def locateNode (access : Access) (id : Nat) : Walk σ Location := do
  match ← a.kindAt id with
  | .identifier name => Walk.lift (env.locateName name)
  | .member base key computed =>
    let holder ← eval access base
    let name ←
      if computed then do
        let v ← eval .read key
        Walk.lift (Store.readingEndless (·.text? v))
      else a.propertyName key
    Walk.lift (env.locateMember access holder name)
  | other => .fault (.notAssignable other.noun)

/-- The receiver of a call and the value that is called. -/
def calleeOf (id : Nat) : Walk σ (Value × Value) := do
  match ← a.kindAt id with
  | .identifier _ | .member .. =>
    let loc ← a.locateNode env eval .read id
    return (loc.base, loc.value)
  | _ => return (.undefined, ← eval .read id)

/-- The values of several nodes, from left to right. -/
def evalNodes : List Nat → Walk σ (List Value)
  | [] => return []
  | id :: rest => do
    let v ← eval .read id
    return v :: (← evalNodes rest)

/-- The values of the arguments of a call, each guarded before the next is evaluated. -/
def guardedNodes : List Nat → Walk σ (List Value)
  | [] => return []
  | id :: rest => do
    let v ← eval .read id
    Walk.lift (env.guardValue v)
    return v :: (← guardedNodes rest)

/-- Writes the properties of an object; what is no property is passed over. -/
def writeProperties (o : Nat) : List Nat → Walk σ Unit
  | [] => return
  | id :: rest => do
    match ← a.kindAt id with
    | .property key value =>
      let v ← eval .read value
      Walk.lift (Store.changing (·.setOwn o key v))
    | _ => pure ()
    writeProperties o rest

/-- Runs statements one after another and yields the value of the last. -/
def evalBody (last : Value) : List Nat → Walk σ Value
  | [] => return last
  | id :: rest => do
    let v ← eval .read id
    evalBody v rest

end Parts

/-! ## Nodes -/

/-- The value of a node, at most so many levels down. -/
def evalNode (lib : Library σ) (env : Env) : Nat → Access → Nat → Walk σ Value
  | 0, _, _ => Walk.lift .endless
  | depth + 1, access, id => do
    match ← a.kindAt id with
    | .program body => evalBody (evalNode lib env depth) .undefined body
    | .literal l => return l.value
    | .array items =>
      let values ← evalNodes (evalNode lib env depth) items
      return .array (← Walk.lift (Store.making (·.newArray values.toArray)))
    | .object properties =>
      let o ← Walk.lift (Store.making (·.newObject .empty none))
      a.writeProperties (evalNode lib env depth) o properties
      return .object o
    | .property _ value => evalNode lib env depth .read value
    | .identifier _ | .member .. =>
      let loc ← a.locateNode env (evalNode lib env depth) access id
      match access with
      | .read => return loc.value
      | .create => Walk.lift loc.intermediate
    | .this => return env.context
    | .locals => return env.locals.getD .undefined
    | .call callee args true =>
      let filterName ← a.propertyName callee
      match env.filters.lookup filterName with
      | none => .fault (.unknownFilter filterName)
      | some behaviour =>
        let values ← evalNodes (evalNode lib env depth) args
        Walk.lift (lib.filter behaviour values)
    | .call callee args false =>
      let (this, function) ← a.calleeOf env (evalNode lib env depth) callee
      if function.isNullish then return .undefined
      Walk.lift (env.guardValue this)
      Walk.lift (env.guardCallee function)
      let values ← guardedNodes env (evalNode lib env depth) args
      match function with
      | .function f =>
        let result ← Walk.lift (lib.invoke env.callLimit f this values)
        Walk.lift (env.guardValue result)
        return result
      | v => Walk.lift (throw (.evaluation (.notCallable v.kind env.source)))
    | .assignment target value =>
      let loc ← a.locateNode env (evalNode lib env depth) .create target
      let v ← evalNode lib env depth .read value
      Walk.lift (env.store loc v)
    | .unary op operand =>
      let v ← evalNode lib env depth .read operand
      Walk.lift (Store.readingEndless (·.unary op v))
    | .binary op left right =>
      let v ← evalNode lib env depth .read left
      let w ← evalNode lib env depth .read right
      Walk.lift (Store.readingEndless (·.binary op v w))
    | .logical op left right =>
      let v ← evalNode lib env depth .read left
      match op, v.truthy with
      | .and, true | .or, false => evalNode lib env depth .read right
      | _, _ => return v
    | .conditional test consequent alternate =>
      let v ← evalNode lib env depth .read test
      if v.truthy then evalNode lib env depth .read consequent
      else evalNode lib env depth .read alternate

end Arena

end DataBinding
