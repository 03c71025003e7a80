/-!
# Tokens

The pieces that the source text of an expression is made of.
-/

namespace DataBinding

/-- What a token is, and the value it carries. -/
inductive TokenKind where
  | number (x : Float)
  | string (s : String)
  | identifier
  | operator
deriving Repr

/-- A token: its text in the source, quotes included, and what it is.  The text of a number has
its exponent marked with a small `e`. -/
structure Token where
  text : String
  kind : TokenKind
deriving Repr

namespace Token

/-- Whether a token is a name. -/
def isIdentifier (t : Token) : Bool :=
  match t.kind with
  | .identifier => true
  | _ => false

/-- Whether a token is this operator or punctuation mark. -/
def isOperator (t : Token) (text : String) : Bool :=
  match t.kind with
  | .operator => t.text == text
  | _ => false

end Token

end DataBinding
