import DataBinding.Expr
import DataBinding.Token
import Mathlib.Tactic.Common

/-!
# The grammar of expressions

Derivations of the grammar that expressions are written in, as trees:

```text
program        := filter? (';' filter?)*
filter         := assignment ('|' IDENT (':' assignment)*)*
assignment     := ternary ('=' assignment)?
ternary        := logicalOr ('?' assignment ':' assignment)?
logicalOr      := logicalAnd ('||' logicalAnd)*
logicalAnd     := equality ('&&' equality)*
equality       := relational (('==' | '!=' | '===' | '!==') relational)*
relational     := additive (('<' | '>' | '<=' | '>=') additive)*
additive       := multiplicative (('+' | '-') multiplicative)*
multiplicative := unary (('*' | '/' | '%') unary)*
unary          := ('+' | '-' | '!') unary | primary
primary        := ( '(' filter ')' | array | object | CONST | IDENT | literal )
                  ( '.' IDENT | '[' filter ']' | '(' arguments ')' )*
```

The six levels of binary operators are one family, `Binary`, from `multiplicative`, which is level
one, to `logicalOr`, which is level six.  The elements of an array, the arguments of a call and the
properties of an object stand between commas.

`tokens` is what a derivation derives, from left to right.  `denote?` is the tree that it stands
for: operators and filters associate to the left, assignments to the right, and brackets leave no
trace.  It is none where the left side of an assignment is neither a name nor a member of something,
which the grammar alone does not rule out.
-/

namespace DataBinding.Grammar

/-! ## Terminals -/

/-- The token of an operator or a punctuation mark. -/
abbrev mark (text : String) : Token := ⟨text, .operator⟩

/-- The token of a name. -/
abbrev ident (text : String) : Token := ⟨text, .identifier⟩

/-- A literal token: a number or a quoted text, as it is spelled and what it stands for. -/
inductive Constant where
  | number (spelling : String) (x : Float)
  | string (spelling : String) (s : String)

namespace Constant

def token : Constant → Token
  | .number spelling x => ⟨spelling, .number x⟩
  | .string spelling s => ⟨spelling, .string s⟩

def literal : Constant → Literal
  | .number _ x => .number x
  | .string _ s => .string s

end Constant

/-- The names that are constants where an operand is expected. -/
inductive Keyword where
  | null
  | true
  | false
  | this
  | locals

namespace Keyword

def text : Keyword → String
  | null => "null"
  | true => "true"
  | false => "false"
  | this => "this"
  | locals => "$locals"

def denote : Keyword → Expr
  | null => .literal .null
  | true => .literal (.bool Bool.true)
  | false => .literal (.bool Bool.false)
  | this => .this
  | locals => .locals

end Keyword

/-- The key of a property.  Keywords are names here. -/
inductive Key where
  | name (s : String)
  | constant (c : Constant)

namespace Key

def token : Key → Token
  | .name s => ident s
  | .constant c => c.token

def denote : Key → PropertyKey
  | .name s => .name s
  | .constant c => .literal c.literal

end Key

/-- The signs before an operand. -/
inductive Sign where
  | plus
  | minus
  | not

namespace Sign

def text : Sign → String
  | plus => "+"
  | minus => "-"
  | not => "!"

def denote : Sign → UnaryOp
  | plus => .plus
  | minus => .minus
  | not => .not

end Sign

/-- The binary operators of each level of binding. -/
inductive Joint : ℕ → Type where
  | mul : Joint 1
  | div : Joint 1
  | rem : Joint 1
  | add : Joint 2
  | sub : Joint 2
  | lt : Joint 3
  | gt : Joint 3
  | ltEq : Joint 3
  | gtEq : Joint 3
  | eq : Joint 4
  | notEq : Joint 4
  | strictEq : Joint 4
  | strictNotEq : Joint 4
  | and : Joint 5
  | or : Joint 6

namespace Joint

def text {n : ℕ} : Joint n → String
  | mul => "*"
  | div => "/"
  | rem => "%"
  | add => "+"
  | sub => "-"
  | lt => "<"
  | gt => ">"
  | ltEq => "<="
  | gtEq => ">="
  | eq => "=="
  | notEq => "!="
  | strictEq => "==="
  | strictNotEq => "!=="
  | and => "&&"
  | or => "||"

def denote {n : ℕ} : Joint n → Expr → Expr → Expr
  | mul => .binary .mul
  | div => .binary .div
  | rem => .binary .rem
  | add => .binary .add
  | sub => .binary .sub
  | lt => .binary .lt
  | gt => .binary .gt
  | ltEq => .binary .ltEq
  | gtEq => .binary .gtEq
  | eq => .binary .eq
  | notEq => .binary .notEq
  | strictEq => .binary .strictEq
  | strictNotEq => .binary .strictNotEq
  | and => .logical .and
  | or => .logical .or

end Joint

/-! ## Derivations -/

mutual

/-- `filter` -/
inductive FilterChain where
  | of (input : Assignment) (pipes : Pipes)

/-- `('|' IDENT (':' assignment)*)*` -/
inductive Pipes where
  | none
  | pipe (name : String) (args : Assignments) (rest : Pipes)

/-- Assignments one after another; what separates them is told by where they stand. -/
inductive Assignments where
  | none
  | more (first : Assignment) (rest : Assignments)

/-- `assignment` -/
inductive Assignment where
  | value (e : Ternary)
  | assign (target : Ternary) (value : Assignment)

/-- `ternary` -/
inductive Ternary where
  | operand (e : Binary 6)
  | choice (test : Binary 6) (consequent alternate : Assignment)

/-- From `unary`, which is level zero, to `logicalOr`, which is level six. -/
inductive Binary : ℕ → Type where
  | unary (e : Unary) : Binary 0
  | joined {n : ℕ} (first : Binary n) (rest : Operands n) : Binary (n + 1)

/-- The operators of level `n + 1`, each with its right operand. -/
inductive Operands : ℕ → Type where
  | none {n : ℕ} : Operands n
  | more {n : ℕ} (op : Joint (n + 1)) (right : Binary n) (rest : Operands n) : Operands n

/-- `unary` -/
inductive Unary where
  | sign (op : Sign) (operand : Unary)
  | primary (e : Primary)

/-- `primary` -/
inductive Primary where
  | of (start : Atom) (chain : Chain)

/-- `('.' IDENT | '[' filter ']' | '(' arguments ')')*` -/
inductive Chain where
  | none
  | member (key : String) (rest : Chain)
  | element (key : FilterChain) (rest : Chain)
  | call (args : Assignments) (rest : Chain)

/-- `'(' filter ')' | array | object | CONST | IDENT | literal` -/
inductive Atom where
  | brackets (e : FilterChain)
  | array (items : Assignments)
  | object (properties : Properties)
  | keyword (k : Keyword)
  | name (s : String) (h : ∀ k : Keyword, k.text ≠ s)
  | constant (c : Constant)

/-- The properties of an object. -/
inductive Properties where
  | none
  | more (key : Key) (value : Assignment) (rest : Properties)

end

/-- `program`: statements between semicolons, any of which may be missing. -/
structure Program where
  first : Option FilterChain
  rest : List (Option FilterChain)

/-! ## What is derived -/

mutual

def FilterChain.tokens : FilterChain → List Token
  | .of input pipes => input.tokens ++ pipes.tokens

def Pipes.tokens : Pipes → List Token
  | .none => []
  | .pipe name args rest => mark "|" :: ident name :: (args.precededBy ":" ++ rest.tokens)

/-- Each of the assignments with a mark before it. -/
def Assignments.precededBy (text : String) : Assignments → List Token
  | .none => []
  | .more first rest => mark text :: (first.tokens ++ rest.precededBy text)

def Assignment.tokens : Assignment → List Token
  | .value e => e.tokens
  | .assign target value => target.tokens ++ mark "=" :: value.tokens

def Ternary.tokens : Ternary → List Token
  | .operand e => e.tokens
  | .choice test consequent alternate =>
    test.tokens ++ mark "?" :: (consequent.tokens ++ mark ":" :: alternate.tokens)

def Binary.tokens {n : ℕ} : Binary n → List Token
  | .unary e => e.tokens
  | .joined first rest => first.tokens ++ rest.tokens

def Operands.tokens {n : ℕ} : Operands n → List Token
  | .none => []
  | .more op right rest => mark op.text :: (right.tokens ++ rest.tokens)

def Unary.tokens : Unary → List Token
  | .sign op operand => mark op.text :: operand.tokens
  | .primary e => e.tokens

def Primary.tokens : Primary → List Token
  | .of start chain => start.tokens ++ chain.tokens

def Chain.tokens : Chain → List Token
  | .none => []
  | .member key rest => mark "." :: ident key :: rest.tokens
  | .element key rest => mark "[" :: (key.tokens ++ mark "]" :: rest.tokens)
  | .call args rest => mark "(" :: (args.between ++ mark ")" :: rest.tokens)

def Atom.tokens : Atom → List Token
  | .brackets e => mark "(" :: (e.tokens ++ [mark ")"])
  | .array items => mark "[" :: (items.between ++ [mark "]"])
  | .object properties => mark "\x7b" :: (properties.between ++ [mark "\x7d"])
  | .keyword k => [ident k.text]
  | .name s _ => [ident s]
  | .constant c => [c.token]

/-- The assignments with commas between them. -/
def Assignments.between : Assignments → List Token
  | .none => []
  | .more first rest => first.tokens ++ rest.precededBy ","

/-- The properties with commas between them. -/
def Properties.between : Properties → List Token
  | .none => []
  | .more key value rest => key.token :: mark ":" :: (value.tokens ++ rest.preceded)

/-- Each of the properties with a comma before it. -/
def Properties.preceded : Properties → List Token
  | .none => []
  | .more key value rest =>
    mark "," :: key.token :: mark ":" :: (value.tokens ++ rest.preceded)

end

/-- The tokens of a statement that may be missing. -/
def statementTokens (d : Option FilterChain) : List Token := (d.map (·.tokens)).getD []

def Program.tokens (d : Program) : List Token :=
  statementTokens d.first ++ d.rest.flatMap fun s => mark ";" :: statementTokens s

/-! ## What is denoted -/

mutual

def FilterChain.denote? : FilterChain → Option Expr
  | .of input pipes => do pipes.denote? (← input.denote?)

/-- Filters apply from left to right. -/
def Pipes.denote? (input : Expr) : Pipes → Option Expr
  | .none => some input
  | .pipe name args rest => do rest.denote? (.filter name input (← args.denote?))

def Assignments.denote? : Assignments → Option (List Expr)
  | .none => some []
  | .more first rest => do return (← first.denote?) :: (← rest.denote?)

/-- Only a name or a member can be assigned to. -/
def Assignment.denote? : Assignment → Option Expr
  | .value e => e.denote?
  | .assign target value => do
    match ← target.denote? with
    | .place p => return .assign p (← value.denote?)
    | _ => none

def Ternary.denote? : Ternary → Option Expr
  | .operand e => e.denote?
  | .choice test consequent alternate =>
    return .conditional (← test.denote?) (← consequent.denote?) (← alternate.denote?)

def Binary.denote? {n : ℕ} : Binary n → Option Expr
  | .unary e => e.denote?
  | .joined first rest => do rest.denote? (← first.denote?)

/-- Operators of one level associate to the left. -/
def Operands.denote? {n : ℕ} (left : Expr) : Operands n → Option Expr
  | .none => some left
  | .more op right rest => do rest.denote? (op.denote left (← right.denote?))

def Unary.denote? : Unary → Option Expr
  | .sign op operand => return .unary op.denote (← operand.denote?)
  | .primary e => e.denote?

def Primary.denote? : Primary → Option Expr
  | .of start chain => do chain.denote? (← start.denote?)

/-- Members are taken and calls made from left to right. -/
def Chain.denote? (e : Expr) : Chain → Option Expr
  | .none => some e
  | .member key rest => rest.denote? (.place (.member e key))
  | .element key rest => do rest.denote? (.place (.element e (← key.denote?)))
  | .call args rest => do rest.denote? (.call e (← args.denote?))

def Atom.denote? : Atom → Option Expr
  | .brackets e => e.denote?
  | .array items => return .array (← items.denote?)
  | .object properties => return .object (← properties.denote?)
  | .keyword k => some k.denote
  | .name s _ => some (.place (.name s))
  | .constant c => some (.literal c.literal)

def Properties.denote? : Properties → Option (List (PropertyKey × Expr))
  | .none => some []
  | .more key value rest => return (key.denote, ← value.denote?) :: (← rest.denote?)

end

/-- The statements that are there. -/
def Program.denote? (d : Program) : Option (List Expr) :=
  ((d.first :: d.rest).filterMap id).mapM (·.denote?)

/-- The derivation derives these tokens, and stands for these statements. -/
structure Program.Derives (d : Program) (ts : List Token) (body : List Expr) : Prop where
  tokens : d.tokens = ts
  denote : d.denote? = some body

end DataBinding.Grammar
