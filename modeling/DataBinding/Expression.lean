import DataBinding.Evaluation
import DataBinding.Expr.Phrase
import DataBinding.Expr.Watching
import DataBinding.Record
import DataBinding.Text.Blank
import DataBinding.Token.Lexer

/-!
# Compiled expressions

A compiled expression is a program together with the filters that its pipes name, as they were
when it was compiled.  `Compiler` keeps the registered filters and one compiled expression per
source text; texts that differ in the blanks around them share it.

Two colons in front make an expression one-time: a watch on it ends once its value has settled.
-/

namespace DataBinding

/-- A filter: its behaviour, which the host knows by name, and whether that keeps state between
calls. -/
structure Filter where
  behaviour : String
  stateful : Bool
deriving DecidableEq, Repr

/-- A compiled expression. -/
structure Expression where
  source : String
  body : List Expr
  filters : List (String × Filter)
  oneTime : Bool

namespace Expression

/-! ## What kind of expression it is -/

/-- Whether a filter keeps state. -/
def stateful (e : Expression) (name : String) : Bool := (e.filters.lookup name).any (·.stateful)

/-- The only statement. -/
def statement? (e : Expression) : Option Expr :=
  match e.body with
  | [s] => some s
  | _ => none

/-- Whether the value can never change. -/
def isConstant (e : Expression) : Bool := e.body.all (Expr.isConstant e.stateful)

/-- Whether the expression is spelled as a value, or is empty. -/
def isLiteral (e : Expression) : Bool := e.body.isEmpty || e.statement?.any Expr.isLiteral

/-- The place that can be assigned to. -/
def target? (e : Expression) : Option Place := e.statement?.bind Expr.place?

/-- The parts whose values determine the value; none if no narrower ones are known. -/
def inputs (e : Expression) : List Expr :=
  match e.statement? with
  | some s => s.inputs e.stateful
  | none => []

/-! ## Compiling -/

/-- The filters of these names, each name once; the first unknown one is an error. -/
def resolve (registry : Record Filter) : List String → Except Error (List (String × Filter))
  | [] => .ok []
  | name :: rest =>
    match registry.get? name with
    | some filter => (resolve registry rest).map ((name, filter) :: ·)
    | none => .error (.unknownFilter name)

/-- Compiles a source text. -/
def compile (registry : Record Filter) (source : String) (oneTime : Bool) :
    Except Error Expression := do
  let tokens ← Token.ofSource source
  let body ← Phrase.statements tokens
  let filters ← resolve registry (Expr.filterNamesList body).eraseDups
  return ⟨source, body, filters, oneTime⟩

/-! ## Evaluating -/

variable {σ : Type}

/-- What the expression is evaluated with. -/
def env (e : Expression) (callLimit : Nat) (context : Value) (locals : Option Value) : Env :=
  ⟨e.source, context, locals, e.filters.map fun (name, f) => (name, f.behaviour), callLimit⟩

/-- The value in a context. -/
def eval (e : Expression) (lib : Library σ) (callLimit : Nat) (context : Value)
    (locals : Option Value) : Compute (Store σ) Value :=
  Expr.evalStatements lib (e.env callLimit context locals) .undefined e.body

/-- The value of a part in a context. -/
def evalPart (e : Expression) (part : Expr) (lib : Library σ) (callLimit : Nat) (context : Value)
    (locals : Option Value) : Compute (Store σ) Value :=
  part.eval lib (e.env callLimit context locals) .read

/-- Assigns a value to the place that the expression is. -/
def assign (e : Expression) (lib : Library σ) (callLimit : Nat) (context : Value) (v : Value)
    (locals : Option Value) : Compute (Store σ) Value :=
  match e.target? with
  | some p => do
    let env := e.env callLimit context locals
    let loc ← Expr.locate lib env .create p
    env.store loc v
  | none => throw (.notAssignable e.source)

end Expression

/-! ## The compiler -/

/-- The registered filters, and the expressions that were compiled. -/
structure Compiler where
  registry : Record Filter
  cache : Record Expression

namespace Compiler

/-- The text under which a source is cached. -/
def key (source : String) : String := Text.trim source

/-- The marks of a one-time expression. -/
def oneTimeMarks : String := "::"

/-- The text of an expression without its one-time marks, and whether it had them. -/
def withoutMarks (text : String) : String × Bool :=
  let cs := text.toList
  if oneTimeMarks.toList.isPrefixOf cs then
    (Text.trimStart (String.ofList (cs.drop oneTimeMarks.length)), true)
  else (text, false)

/-- The expression of a source: the cached one if there is one, else a new one, which is cached
if compiling succeeds. -/
def parse (c : Compiler) (source : String) : Except Error Expression × Compiler :=
  match c.cache.get? (key source) with
  | some e => (.ok e, c)
  | none =>
    let (text, oneTime) := withoutMarks (key source)
    match Expression.compile c.registry text oneTime with
    | .ok e => (.ok e, { c with cache := c.cache.set (key source) e })
    | .error e => (.error e, c)

/-- Registers a filter; expressions compiled before keep theirs. -/
def register (c : Compiler) (name : String) (filter : Filter) : Compiler :=
  { c with registry := c.registry.set name filter }

/-- Forgets all compiled expressions. -/
def clear (c : Compiler) : Compiler := { c with cache := .empty }

theorem parse_of_cached {c : Compiler} {source : String} {e : Expression}
    (h : c.cache.get? (key source) = some e) : c.parse source = (.ok e, c) := by
  rw [parse, h]

/-- What was parsed once is cached. -/
theorem get?_cache_parse {c d : Compiler} {source : String} {e : Expression}
    (h : c.parse source = (.ok e, d)) : d.cache.get? (key source) = some e := by
  unfold parse at h
  split at h
  · next hc => cases h; exact hc
  · dsimp only at h
    split at h
    · cases h; exact Record.get?_set_self ..
    · cases h

end Compiler

end DataBinding
