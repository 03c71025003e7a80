import DataBinding.Error
import DataBinding.Expr
import DataBinding.Token

/-!
# Phrases

Recursive descent over tokens, by one function per kind of phrase:

```text
program     := filter? (';' filter?)*
filter      := assignment ('|' NAME (':' assignment)*)*
assignment  := ternary ('=' assignment)?
ternary     := binary(6) ('?' assignment ':' assignment)?
binary(n+1) := binary(n) (operator of level n+1, binary(n))*
binary(0)   := unary
unary       := ('+' | '-' | '!') unary | primary
primary     := atom ('.' NAME | '[' filter ']' | '(' arguments ')')*
atom        := '(' filter ')' | array | object | keyword | NAME | NUMBER | STRING
```

Binary operators associate to the left, assignments to the right, and only a place may be
assigned to.  Every function returns what it read with the proof that the tokens left are fewer,
so the recursion goes down in the number of tokens, and among phrases that begin at one token in
the order of the grammar.
-/

namespace DataBinding

namespace Phrase

/-- What was read, and fewer tokens that are left. -/
structure Shorter (α : Type) (ts : List Token) where
  value : α
  rest : List Token
  rest_lt : rest.length < ts.length

/-- What was read, possibly from no token at all. -/
structure NotLonger (α : Type) (ts : List Token) where
  value : α
  rest : List Token
  rest_le : rest.length ≤ ts.length

/-- The reading of a phrase that has at least one token. -/
abbrev Parsed (α : Type) (ts : List Token) : Type := Except Error (Shorter α ts)

/-- The reading of a phrase that may be empty. -/
abbrev ParsedOpt (α : Type) (ts : List Token) : Type := Except Error (NotLonger α ts)

/-! ## Single tokens -/

/-- The tokens after an operator, if it comes next. -/
def accept? (text : String) : (ts : List Token) → Option { r : List Token // r.length < ts.length }
  | [] => none
  | t :: rest => if t.isOperator text then some ⟨rest, Nat.lt_succ_self _⟩ else none

/-- The tokens after an operator, which has to come next. -/
def expect (text : String) (ts : List Token) :
    Except Error { r : List Token // r.length < ts.length } :=
  match accept? text ts with
  | some r => .ok r
  | none =>
    match ts with
    | t :: _ => .error (.grammar (.expected text t.text))
    | [] => .error (.grammar (.expectedAtEnd text))

/-- A name. -/
def name : (ts : List Token) → Parsed String ts
  | [] => .error (.grammar .unexpectedEnd)
  | t :: rest =>
    if t.isIdentifier then .ok ⟨t.text, rest, Nat.lt_succ_self _⟩
    else .error (.grammar (.identifierExpected t.text))

/-- A number or a quoted text. -/
def constant : (ts : List Token) → Parsed Literal ts
  | [] => .error (.grammar .unexpectedEnd)
  | t :: rest =>
    match t.kind with
    | .number x => .ok ⟨.number x, rest, Nat.lt_succ_self _⟩
    | .string s => .ok ⟨.string s, rest, Nat.lt_succ_self _⟩
    | _ => .error (.grammar (.unexpected t.text))

/-- The key of a property. -/
def propertyKey (ts : List Token) : Parsed PropertyKey ts :=
  match ts with
  | t :: rest =>
    if t.isIdentifier then .ok ⟨.name t.text, rest, Nat.lt_succ_self _⟩
    else (constant (t :: rest)).map fun ⟨l, left, h⟩ => ⟨.literal l, left, h⟩
  | [] => .error (.grammar .unexpectedEnd)

/-- Names that are no places. -/
def keyword? : String → Option Expr
  | "null" => some (.literal .null)
  | "true" => some (.literal (.bool true))
  | "false" => some (.literal (.bool false))
  | "this" => some .this
  | "$locals" => some .locals
  | _ => none

/-! ## Operators -/

/-- The signs before an operand. -/
def unaryOperators : List (String × UnaryOp) := [("+", .plus), ("-", .minus), ("!", .not)]

/-- The operators of a level of binding, level one binding tightest. -/
def operatorLevel : Nat → List (String × (Expr → Expr → Expr))
  | 1 => [("*", .binary .mul), ("/", .binary .div), ("%", .binary .rem)]
  | 2 => [("+", .binary .add), ("-", .binary .sub)]
  | 3 => [("<", .binary .lt), (">", .binary .gt), ("<=", .binary .ltEq), (">=", .binary .gtEq)]
  | 4 => [("==", .binary .eq), ("!=", .binary .notEq), ("===", .binary .strictEq),
      ("!==", .binary .strictNotEq)]
  | 5 => [("&&", .logical .and)]
  | 6 => [("||", .logical .or)]
  | _ => []

/-- How many levels there are. -/
abbrev levelCount : Nat := 6

/-- What an operator of a table stands for, if one comes next, and the tokens after it. -/
def acceptOf? (table : List (String × α)) :
    (ts : List Token) → Option (α × { r : List Token // r.length < ts.length })
  | [] => none
  | t :: rest =>
    match t.kind with
    | .operator => (table.lookup t.text).map fun x => (x, ⟨rest, Nat.lt_succ_self _⟩)
    | _ => none

/-! ## Phrases -/

mutual

/-- An expression piped through any number of filters. -/
def filterChain (ts : List Token) : Parsed Expr ts := do
  let ⟨input, rest, h⟩ ← assignment ts
  let ⟨e, left, h'⟩ ← pipes input rest
  return ⟨e, left, by omega⟩
termination_by (ts.length, 14)

/-- The filters that follow an expression. -/
def pipes (input : Expr) (ts : List Token) : ParsedOpt Expr ts :=
  match accept? "|" ts with
  | none => return ⟨input, ts, Nat.le_refl _⟩
  | some ⟨after, h⟩ => do
    let ⟨filterName, rest, h₁⟩ ← name after
    let ⟨args, rest, h₂⟩ ← filterArgs rest
    let ⟨e, left, h₃⟩ ← pipes (.filter filterName input args) rest
    return ⟨e, left, by omega⟩
termination_by (ts.length, 0)

/-- The arguments of a filter, each after a colon. -/
def filterArgs (ts : List Token) : ParsedOpt (List Expr) ts :=
  match accept? ":" ts with
  | none => return ⟨[], ts, Nat.le_refl _⟩
  | some ⟨after, h⟩ => do
    let ⟨e, rest, h₁⟩ ← assignment after
    let ⟨es, left, h₂⟩ ← filterArgs rest
    return ⟨e :: es, left, by omega⟩
termination_by (ts.length, 0)

/-- An expression, or an assignment to a place. -/
def assignment (ts : List Token) : Parsed Expr ts := do
  let ⟨target, rest, h⟩ ← ternary ts
  match accept? "=" rest with
  | none => return ⟨target, rest, h⟩
  | some ⟨after, h₁⟩ =>
    match target.place? with
    | some p =>
      let ⟨value, left, h₂⟩ ← assignment after
      return ⟨.assign p value, left, by omega⟩
    | none => throw (.grammar .assignmentToNonPlace)
termination_by (ts.length, 13)

/-- An expression, or a choice between two. -/
def ternary (ts : List Token) : Parsed Expr ts := do
  let ⟨test, rest, h⟩ ← binary levelCount ts
  match accept? "?" rest with
  | none => return ⟨test, rest, h⟩
  | some ⟨after, h₁⟩ =>
    let ⟨consequent, rest, h₂⟩ ← assignment after
    let ⟨rest, h₃⟩ ← expect ":" rest
    let ⟨alternate, left, h₄⟩ ← assignment rest
    return ⟨.conditional test consequent alternate, left, by omega⟩
termination_by (ts.length, 12)

/-- Operands joined by the operators of the lowest `level` levels. -/
def binary (level : Nat) (ts : List Token) : Parsed Expr ts :=
  match level with
  | 0 => unary ts
  | below + 1 => do
    let ⟨left, rest, h⟩ ← binary below ts
    let ⟨e, left, h₁⟩ ← operands below left rest
    return ⟨e, left, by omega⟩
termination_by (ts.length, 5 + level)

/-- The operators of level `below + 1` that follow an operand, and their right operands. -/
def operands (below : Nat) (left : Expr) (ts : List Token) : ParsedOpt Expr ts :=
  match acceptOf? (operatorLevel (below + 1)) ts with
  | none => return ⟨left, ts, Nat.le_refl _⟩
  | some (join, ⟨after, h⟩) => do
    let ⟨right, rest, h₁⟩ ← binary below after
    let ⟨e, left, h₂⟩ ← operands below (join left right) rest
    return ⟨e, left, by omega⟩
termination_by (ts.length, 0)

/-- An operand with any number of signs. -/
def unary (ts : List Token) : Parsed Expr ts :=
  match acceptOf? unaryOperators ts with
  | none => primary ts
  | some (op, ⟨after, h⟩) => do
    let ⟨operand, left, h₁⟩ ← unary after
    return ⟨.unary op operand, left, by omega⟩
termination_by (ts.length, 4)

/-- An atom with any number of members taken and calls made. -/
def primary (ts : List Token) : Parsed Expr ts := do
  let ⟨e, rest, h⟩ ← atom ts
  let ⟨e, left, h₁⟩ ← chain e rest
  return ⟨e, left, by omega⟩
termination_by (ts.length, 3)

/-- The members and calls that follow an expression. -/
def chain (e : Expr) (ts : List Token) : ParsedOpt Expr ts :=
  match accept? "." ts, accept? "[" ts, accept? "(" ts with
  | some ⟨after, h⟩, _, _ => do
    let ⟨key, rest, h₁⟩ ← name after
    let ⟨e, left, h₂⟩ ← chain (.place (.member e key)) rest
    return ⟨e, left, by omega⟩
  | none, some ⟨after, h⟩, _ => do
    let ⟨key, rest, h₁⟩ ← filterChain after
    let ⟨rest, h₂⟩ ← expect "]" rest
    let ⟨e, left, h₃⟩ ← chain (.place (.element e key)) rest
    return ⟨e, left, by omega⟩
  | none, none, some ⟨after, h⟩ => do
    let ⟨args, rest, h₁⟩ ← items ")" after
    let ⟨rest, h₂⟩ ← expect ")" rest
    let ⟨e, left, h₃⟩ ← chain (.call e args) rest
    return ⟨e, left, by omega⟩
  | none, none, none => return ⟨e, ts, Nat.le_refl _⟩
termination_by (ts.length, 0)

/-- What stands without operators: a phrase in brackets, a keyword, a name or a constant. -/
def atom (ts : List Token) : Parsed Expr ts :=
  match accept? "(" ts, accept? "[" ts, accept? "\x7b" ts with
  | some ⟨after, h⟩, _, _ => do
    let ⟨e, rest, h₁⟩ ← filterChain after
    let ⟨left, h₂⟩ ← expect ")" rest
    return ⟨e, left, by omega⟩
  | none, some ⟨after, h⟩, _ => do
    let ⟨es, rest, h₁⟩ ← items "]" after
    let ⟨left, h₂⟩ ← expect "]" rest
    return ⟨.array es, left, by omega⟩
  | none, none, some ⟨after, h⟩ => do
    let ⟨ps, rest, h₁⟩ ← properties after
    let ⟨left, h₂⟩ ← expect "\x7d" rest
    return ⟨.object ps, left, by omega⟩
  | none, none, none =>
    match ts with
    | t :: rest =>
      if t.isIdentifier then
        return ⟨(keyword? t.text).getD (.place (.name t.text)), rest, Nat.lt_succ_self _⟩
      else do
        let ⟨l, left, h⟩ ← constant (t :: rest)
        return ⟨.literal l, left, h⟩
    | [] => throw (.grammar .unexpectedEnd)
termination_by (ts.length, 2)

/-- Assignments between commas, none before the closing bracket `close`. -/
def items (close : String) (ts : List Token) : ParsedOpt (List Expr) ts :=
  match accept? close ts with
  | some _ => return ⟨[], ts, Nat.le_refl _⟩
  | none => do
    let ⟨es, left, h⟩ ← itemList ts
    return ⟨es, left, Nat.le_of_lt h⟩
termination_by (ts.length, 16)

/-- One or more assignments between commas. -/
def itemList (ts : List Token) : Parsed (List Expr) ts := do
  let ⟨e, rest, h⟩ ← assignment ts
  match accept? "," rest with
  | none => return ⟨[e], rest, h⟩
  | some ⟨after, h₁⟩ =>
    let ⟨es, left, h₂⟩ ← itemList after
    return ⟨e :: es, left, by omega⟩
termination_by (ts.length, 15)

/-- Properties between commas, none before the closing brace. -/
def properties (ts : List Token) : ParsedOpt (List (PropertyKey × Expr)) ts :=
  match accept? "\x7d" ts with
  | some _ => return ⟨[], ts, Nat.le_refl _⟩
  | none => do
    let ⟨ps, left, h⟩ ← propertyList ts
    return ⟨ps, left, Nat.le_of_lt h⟩
termination_by (ts.length, 16)

/-- One or more properties between commas. -/
def propertyList (ts : List Token) : Parsed (List (PropertyKey × Expr)) ts := do
  let ⟨key, rest, h⟩ ← propertyKey ts
  let ⟨rest, h₁⟩ ← expect ":" rest
  let ⟨value, rest, h₂⟩ ← assignment rest
  match accept? "," rest with
  | none => return ⟨[(key, value)], rest, by omega⟩
  | some ⟨after, h₃⟩ =>
    let ⟨ps, left, h₄⟩ ← propertyList after
    return ⟨(key, value) :: ps, left, by omega⟩
termination_by (ts.length, 15)

end

/-! ## Programs -/

/-- Statements between semicolons; empty ones leave nothing. -/
def statements (ts : List Token) : Except Error (List Expr) :=
  match ts with
  | [] => return []
  | t :: rest =>
    if t.isOperator ";" then statements rest
    else do
      let ⟨e, left, h⟩ ← filterChain (t :: rest)
      match left, h with
      | [], _ => return [e]
      | t' :: rest', _ =>
        if t'.isOperator ";" then return e :: (← statements rest')
        else throw (.grammar (.unexpected t'.text))
termination_by ts.length
decreasing_by
  · exact Nat.lt_succ_self _
  · exact Nat.lt_of_succ_lt (by assumption)

end Phrase

end DataBinding
