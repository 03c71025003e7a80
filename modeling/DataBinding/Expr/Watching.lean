import DataBinding.Expr

/-!
# What to watch of an expression

The static analysis behind the choice of a watch.  It tells whether an expression is constant, and
which of its parts have to change before its value can.

A name, a member, a call, an assignment, a choice and a filter that keeps state are watched as
they are; a form that only combines the values of its parts is watched through what its parts
watch.  A part that is constant adds nothing to an array, an object or the arguments of a filter.
-/

namespace DataBinding

/-- What the analysis finds out: whether the value is constant, and what to watch for a change. -/
structure Watch (ι : Type) where
  constant : Bool
  watched : List ι

namespace Watch

variable {ι : Type}

/-- Nothing to watch. -/
def still (constant : Bool) : Watch ι := ⟨constant, []⟩

/-- The expression itself is watched. -/
def itself (self : ι) (constant : Bool) : Watch ι := ⟨constant, [self]⟩

/-- Two operands, both watched. -/
def both (a b : Watch ι) : Watch ι := ⟨a.constant && b.constant, a.watched ++ b.watched⟩

/-- Several parts, of which only those that are not constant are watched. -/
def union (parts : List (Watch ι)) : Watch ι :=
  ⟨parts.all (·.constant), parts.flatMap fun w => if w.constant then [] else w.watched⟩

@[simp] theorem union_nil : (union [] : Watch ι) = still true := rfl

theorem union_cons (w : Watch ι) (ws : List (Watch ι)) :
    union (w :: ws) =
      ⟨w.constant && (union ws).constant,
        (if w.constant then [] else w.watched) ++ (union ws).watched⟩ := rfl

end Watch

namespace Expr

/-- Whether an expression is watched as it is. -/
def watchesItself (stateful : String → Bool) : Expr → Bool
  | .place _ | .call .. | .assign .. | .logical .. | .conditional .. => true
  | .filter filterName .. => stateful filterName
  | _ => false

mutual

/-- The watch of an expression; `stateful` tells which filters keep state between calls. -/
def watch (stateful : String → Bool) : Expr → Watch Expr
  | .literal _ => .still true
  | .this => .still false
  | .locals => .still false
  | .array items => .union (watchList stateful items)
  | .object properties => .union (watchProperties stateful properties)
  | .place p => .itself (.place p) (placeConstant stateful p)
  | .call callee args => .itself (.call callee args) false
  | .filter filterName input args =>
    if stateful filterName then .itself (.filter filterName input args) false
    else .union (watch stateful input :: watchList stateful args)
  | .assign target value =>
    .itself (.assign target value)
      (placeConstant stateful target && (watch stateful value).constant)
  | .unary _ operand => watch stateful operand
  | .binary _ left right => .both (watch stateful left) (watch stateful right)
  | .logical op left right =>
    .itself (.logical op left right)
      ((watch stateful left).constant && (watch stateful right).constant)
  | .conditional test consequent alternate =>
    .itself (.conditional test consequent alternate)
      ((watch stateful test).constant && (watch stateful consequent).constant &&
        (watch stateful alternate).constant)

/-- A place is constant when all it is made of is, and it hangs on no name. -/
def placeConstant (stateful : String → Bool) : Place → Bool
  | .name _ => false
  | .member base _ => (watch stateful base).constant
  | .element base key => (watch stateful base).constant && (watch stateful key).constant

/-- The watches of several expressions. -/
def watchList (stateful : String → Bool) : List Expr → List (Watch Expr)
  | [] => []
  | e :: rest => watch stateful e :: watchList stateful rest

/-- The watches of the properties of an object literal. -/
def watchProperties (stateful : String → Bool) : List (PropertyKey × Expr) → List (Watch Expr)
  | [] => []
  | (_, e) :: rest => watch stateful e :: watchProperties stateful rest

end

/-- Whether the value can never change. -/
def isConstant (stateful : String → Bool) (e : Expr) : Bool := (e.watch stateful).constant

/-- The parts whose values determine the value of the expression; none if no parts narrower than
the expression itself are known to. -/
def inputs (stateful : String → Bool) (e : Expr) : List Expr :=
  if e.watchesItself stateful then [] else (e.watch stateful).watched

end Expr

end DataBinding
