/-!
# Errors

Every way in which compiling, evaluating, digesting or configuring fails, as its cause.  The
wording is in the `message` functions alone.

Lexical, grammar and unknown-filter errors arise when an expression is compiled; refusals,
assignments to what is no place and evaluation errors end one evaluation; a busy tree and a
divergence concern the digest; callback errors are raised by the host's own procedures.
-/

namespace DataBinding

/-- What the scope tree is in the middle of.  Neither phase can be entered while one is active. -/
inductive Phase where
  | digest
  | apply
deriving DecidableEq, Repr

/-- The name of a phase, as errors show it. -/
def Phase.name : Phase → String
  | .digest => "$digest"
  | .apply => "$apply"

/-- Why a source text cannot be split into tokens. -/
inductive LexicalFault where
  | unexpectedCharacter (c : Char)
  | unmatchedQuote
  | invalidEscape
  | invalidExponent
  | invalidNumber (text : String)
deriving DecidableEq, Repr

/-- Why a token list is no program. -/
inductive GrammarFault where
  | unexpected (text : String)
  | expected (text found : String)
  | expectedAtEnd (text : String)
  | identifierExpected (found : String)
  | unexpectedEnd
  | assignmentToNonPlace
deriving DecidableEq, Repr

/-- What an expression may not touch. -/
inductive Forbidden where
  | member (name : String)
  | window
  | documentNode
  | selfConstructor
  | constructorOf (name : String)
  | reflectiveCall (name : String)
deriving DecidableEq, Repr

/-- Why an evaluation fails although nothing forbidden was touched. -/
inductive EvaluationFault where
  | growth (length requested : Nat)
  | propertyOfNullish (key kind : String)
  | notCallable (kind source : String)
  | receiverNotCallable (operation kind : String)
  | sourceCompilation
deriving DecidableEq, Repr

/-- Why a configuration is refused. -/
inductive ConfigFault where
  | zeroTtl
  | malformed
deriving DecidableEq, Repr

/-- The causes of failure. -/
inductive Error where
  | lexical (fault : LexicalFault) (column : Nat)
  | grammar (fault : GrammarFault)
  | unknownFilter (name : String)
  | refused (what : Forbidden) (source : String)
  | notAssignable (source : String)
  | evaluation (fault : EvaluationFault)
  | busy (phase : Phase)
  | divergence (ttl : Nat)
  | callback (text : String)
  | configuration (fault : ConfigFault)
  | noClock
deriving DecidableEq, Repr

def LexicalFault.message : LexicalFault → String
  | .unexpectedCharacter c => s!"unexpected character '{c}'"
  | .unmatchedQuote => "unmatched quote"
  | .invalidEscape => "invalid unicode escape"
  | .invalidExponent => "invalid exponent"
  | .invalidNumber text => s!"invalid number '{text}'"

def GrammarFault.message : GrammarFault → String
  | .unexpected text => s!"unexpected token '{text}'"
  | .expected text found => s!"expected '{text}' but found '{found}'"
  | .expectedAtEnd text => s!"expected '{text}' but reached the end of the expression"
  | .identifierExpected found => s!"expected an identifier but found '{found}'"
  | .unexpectedEnd => "unexpected end of expression"
  | .assignmentToNonPlace => "trying to assign a value to a non l-value"

/-- The forbidden thing as the subject of a refusal. -/
def Forbidden.subject : Forbidden → String
  | .member name => s!"`{name}` is"
  | .window => "the window is"
  | .documentNode => "DOM nodes is"
  | .selfConstructor => "a constructor is"
  | .constructorOf name => s!"the {name} constructor is"
  | .reflectiveCall name => s!"`{name}` is"

def EvaluationFault.message : EvaluationFault → String
  | .growth length requested =>
    s!"cannot grow an array of length {length} to cover index {requested}"
  | .propertyOfNullish key kind => s!"cannot set property '{key}' of {kind}"
  | .notCallable kind source => s!"{kind} is not a function in expression `{source}`"
  | .receiverNotCallable operation kind => s!"{operation} called on a non-function ({kind})"
  | .sourceCompilation => "the Function constructor cannot compile source text"

def ConfigFault.message : ConfigFault → String
  | .zeroTtl => "digest_ttl must be at least 1"
  | .malformed => "malformed document"

/-- The text shown for an error. -/
def Error.message : Error → String
  | .lexical fault column =>
    let text := fault.message
    s!"lexer error at column {column}: {text}"
  | .grammar fault => "syntax error: " ++ fault.message
  | .unknownFilter name => s!"unknown filter `{name}`"
  | .refused what source =>
    let subject := what.subject
    s!"security violation: referencing {subject} disallowed in expression `{source}`"
  | .notAssignable source => s!"expression `{source}` is not assignable"
  | .evaluation fault => "evaluation error: " ++ fault.message
  | .busy phase => phase.name ++ " already in progress"
  | .divergence ttl => s!"{ttl} $digest() iterations reached, aborting"
  | .callback text => text
  | .configuration fault => "invalid configuration: " ++ fault.message
  | .noClock => "scheduler error: no clock is running"

end DataBinding
