import DataBinding.Number.Text
import DataBinding.Value

/-!
# Expressions

The trees that source texts are parsed into.  A place is an expression that can be assigned to: a
name, or a member of another expression.  Only places can stand on the left of an assignment, and
a pipe through a filter is a form of its own, apart from the call of a function value.
-/

namespace DataBinding

/-- A value that is written out in the source. -/
inductive Literal where
  | null
  | bool (b : Bool)
  | number (x : Float)
  | string (s : String)
deriving Repr

/-- The value written out. -/
def Literal.value : Literal → Value
  | .null => .null
  | .bool b => .bool b
  | .number x => .number x
  | .string s => .string s

/-- The text of a literal, which names a property when the literal stands for its key. -/
def Literal.text : Literal → String
  | .null => "null"
  | .bool b => if b then "true" else "false"
  | .number x => Number.text x
  | .string s => s

inductive UnaryOp where
  | plus
  | minus
  | not
deriving DecidableEq, Repr

inductive BinaryOp where
  | add
  | sub
  | mul
  | div
  | rem
  | eq
  | notEq
  | strictEq
  | strictNotEq
  | lt
  | gt
  | ltEq
  | gtEq
deriving DecidableEq, Repr

inductive LogicalOp where
  | and
  | or
deriving DecidableEq, Repr

/-- The key of a property in an object literal: a name, or a literal whose text is the name. -/
inductive PropertyKey where
  | name (s : String)
  | literal (l : Literal)
deriving Repr

/-- The name of the property. -/
def PropertyKey.text : PropertyKey → String
  | .name s => s
  | .literal l => l.text

mutual

/-- An expression. -/
inductive Expr where
  | literal (l : Literal)
  | array (items : List Expr)
  | object (properties : List (PropertyKey × Expr))
  | this
  | locals
  | place (p : Place)
  | call (callee : Expr) (args : List Expr)
  | filter (name : String) (input : Expr) (args : List Expr)
  | assign (target : Place) (value : Expr)
  | unary (op : UnaryOp) (operand : Expr)
  | binary (op : BinaryOp) (left right : Expr)
  | logical (op : LogicalOp) (left right : Expr)
  | conditional (test consequent alternate : Expr)

/-- An expression that can be assigned to: a name, `base.key` or `base[key]`. -/
inductive Place where
  | name (s : String)
  | member (base : Expr) (key : String)
  | element (base : Expr) (key : Expr)

end

namespace Expr

instance : Inhabited Expr := ⟨.this⟩

/-- The place that an expression is. -/
def place? : Expr → Option Place
  | .place p => some p
  | _ => none

/-- Whether an expression is spelled as a value: a literal, an array or an object. -/
def isLiteral : Expr → Bool
  | .literal _ | .array _ | .object _ => true
  | _ => false

mutual

/-- The names of the filters in an expression, in the order of their application. -/
def filterNames : Expr → List String
  | .literal _ | .this | .locals => []
  | .array items => filterNamesList items
  | .object properties => filterNamesProperties properties
  | .place p => placeFilterNames p
  | .call callee args => filterNames callee ++ filterNamesList args
  | .filter name input args => filterNames input ++ filterNamesList args ++ [name]
  | .assign target value => placeFilterNames target ++ filterNames value
  | .unary _ operand => filterNames operand
  | .binary _ left right => filterNames left ++ filterNames right
  | .logical _ left right => filterNames left ++ filterNames right
  | .conditional test consequent alternate =>
    filterNames test ++ filterNames consequent ++ filterNames alternate

/-- The names of the filters in a place. -/
def placeFilterNames : Place → List String
  | .name _ => []
  | .member base _ => filterNames base
  | .element base key => filterNames base ++ filterNames key

/-- The names of the filters in several expressions. -/
def filterNamesList : List Expr → List String
  | [] => []
  | e :: rest => filterNames e ++ filterNamesList rest

/-- The names of the filters in the properties of an object literal. -/
def filterNamesProperties : List (PropertyKey × Expr) → List String
  | [] => []
  | (_, e) :: rest => filterNames e ++ filterNamesProperties rest

end

end Expr

end DataBinding
