import DataBinding.Tree

/-!
# Programs of the host

What a procedure of the host does is a program: it computes on the store, looks at the tree, and
asks the engine for things, one after another, each request depending on the answers before.  A
program is data, so it can do to a tree nothing but what a request does.
-/

namespace DataBinding

/-- What a program can ask for, and what the answer is. -/
inductive Request (κ σ : Type) : Type → Type 1 where
  /-- A look at the tree. -/
  | look : Request κ σ (Tree κ σ)
  /-- A computation on the store. -/
  | compute {β : Type} (m : Compute (Store σ) β) : Request κ σ β
  /-- The expression of a source text. -/
  | parse (source : String) : Request κ σ Expression
  /-- Registers a filter. -/
  | registerFilter (name : String) (filter : Filter) : Request κ σ Unit
  /-- Forgets all compiled expressions. -/
  | clearCache : Request κ σ Unit
  /-- The value of a source text in a scope. -/
  | evaluate (s : ScopeId) (source : String) (locals : Option Value) : Request κ σ Value
  /-- A new child of `parent` that inherits from `s` unless it is isolated. -/
  | newChild (s : ScopeId) (isolated : Bool) (parent : ScopeId) : Request κ σ ScopeId
  /-- Destroys a scope. -/
  | destroy (s : ScopeId) : Request κ σ Unit
  /-- Watches what a procedure computes. -/
  | watch (s : ScopeId) (watch listener : κ) (byValue : Bool) : Request κ σ Registration
  /-- Watches an expression. -/
  | watchExpression (s : ScopeId) (source : String) (listener : κ) (byValue : Bool) :
    Request κ σ Registration
  /-- Watches what several procedures compute, with one listener. -/
  | watchGroup (s : ScopeId) (watches : List κ) (listener : κ) : Request κ σ Registration
  /-- Watches the elements of what a procedure computes. -/
  | watchCollection (s : ScopeId) (watch listener : κ) : Request κ σ Registration
  /-- Listens for the events of a name. -/
  | listen (s : ScopeId) (event : String) (procedure : κ) : Request κ σ Registration
  /-- Takes a registration back. -/
  | deregister (r : Registration) : Request κ σ Unit
  /-- Runs a procedure in the next pass. -/
  | evalAsync (s : ScopeId) (procedure : κ) : Request κ σ Unit
  /-- Runs a procedure in the next apply. -/
  | applyAsync (s : ScopeId) (procedure : κ) : Request κ σ Unit
  /-- Runs a procedure after the digest. -/
  | postDigest (s : ScopeId) (procedure : κ) : Request κ σ Unit
  /-- Digests a scope and its descendants. -/
  | digest (s : ScopeId) : Request κ σ Unit
  /-- Runs a procedure in the apply phase and digests the tree. -/
  | apply (s : ScopeId) (procedure : κ) : Request κ σ Value
  /-- Evaluates a source text in the apply phase and digests the tree. -/
  | applySource (s : ScopeId) (source : String) : Request κ σ Value
  /-- Emits an event. -/
  | emit (s : ScopeId) (name : String) (args : List Value) : Request κ σ EventId
  /-- Broadcasts an event. -/
  | broadcast (s : ScopeId) (name : String) (args : List Value) : Request κ σ EventId
  /-- Keeps an event from travelling on. -/
  | stop (e : EventId) : Request κ σ Unit
  /-- Asks that what an event announces be left undone. -/
  | prevent (e : EventId) : Request κ σ Unit
  /-- Hands an error to the host. -/
  | report (e : Error) : Request κ σ Unit
  /-- Runs the deferred jobs that wait to be asked for; the answer is how many ran. -/
  | flush : Request κ σ Nat
  /-- Lets time pass. -/
  | advance (milliseconds : Nat) : Request κ σ Unit

/-- A program: done with a value or an error, or a request and what to do with its answer. -/
inductive Program (κ σ α : Type) : Type 1 where
  | done (result : Except Error α)
  | ask {β : Type} (request : Request κ σ β) (next : Except Error β → Program κ σ α)

namespace Program

variable {κ σ α β : Type}

/-- One program after another; an error ends the whole. -/
def bind (p : Program κ σ α) (f : α → Program κ σ β) : Program κ σ β :=
  match p with
  | .done (.ok a) => f a
  | .done (.error e) => .done (.error e)
  | .ask request next => .ask request fun answer => (next answer).bind f

instance : Monad (Program κ σ) where
  pure a := .done (.ok a)
  bind := bind

@[simp] theorem done_ok_bind (a : α) (f : α → Program κ σ β) :
    (Program.done (.ok a) >>= f) = f a := rfl

@[simp] theorem done_error_bind (e : Error) (f : α → Program κ σ β) :
    (Program.done (.error e) >>= f) = .done (.error e) := rfl

@[simp] theorem ask_bind {γ : Type} (q : Request κ σ γ) (next : Except Error γ → Program κ σ α)
    (f : α → Program κ σ β) :
    (Program.ask q next >>= f) = .ask q fun answer => next answer >>= f := rfl

instance : LawfulMonad (Program κ σ) := LawfulMonad.mk' _
  (fun p => by
    induction p with
    | done r => cases r <;> rfl
    | ask q next ih => exact congrArg (Program.ask q) (funext ih))
  (fun _ _ => rfl)
  (fun p f g => by
    induction p with
    | done r => cases r <;> rfl
    | ask q next ih => exact congrArg (Program.ask q) (funext ih))

/-- The program that fails. -/
def fail (e : Error) : Program κ σ α := .done (.error e)

/-- A request of its own. -/
def request (q : Request κ σ α) : Program κ σ α := .ask q .done

/-- A computation on the store. -/
def compute (m : Compute (Store σ) α) : Program κ σ α := request (.compute m)

/-- Something that is read off the tree. -/
def look (f : Tree κ σ → α) : Program κ σ α := do
  return f (← request .look)

/-- Ends without an error: an error becomes the value. -/
def attempt : Program κ σ α → Program κ σ (Except Error α)
  | .done result => .done (.ok result)
  | .ask request next => .ask request fun answer => (next answer).attempt

end Program

end DataBinding
