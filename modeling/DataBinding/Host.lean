import DataBinding.Engine.Deferred
import DataBinding.Engine.Delivery
import DataBinding.Program

/-!
# Running a tree for a host

A host is what surrounds a scope tree: its library of functions and filters, its way with errors,
and its procedures, each a program for every way of being called.  `Engine.answer` says what each
request does, and `Host.run` ties the knot: the programs of procedures are run by the same engine
that calls them.

Since procedures can call each other without end, a run has a limit, to which the nesting of calls
and the length of every loop are held.  A run that stays below the limit does not depend on it.
-/

namespace DataBinding

/-- The surroundings of a scope tree. -/
structure Host (κ σ : Type) where
  library : Library σ
  report : Error → σ → σ
  procedure : κ → Invocation → Program κ σ Value

namespace Engine

variable {κ σ : Type} (E : Engine κ σ)

/-! ## Requests -/

/-- Watches an expression in the way that suits it. -/
def watchExpression (s : ScopeId) (source : String) (listener : κ) (byValue : Bool) :
    Routine κ σ Registration := do
  let e ← Routine.parse source
  .watcher <$> Compute.alter (·.addWatcher s (.ofExpression e listener byValue) byValue)

/-- Watches a group.  Without members its listener is called once, by a task. -/
def watchGroup (s : ScopeId) (watches : List κ) (listener : κ) : Routine κ σ Registration :=
  if watches.isEmpty then do
    let a ← Compute.alter (·.addAnnouncement listener)
    Compute.change (·.queueAsync s (.announcement a))
    return .announcement a
  else do
    let g ← Compute.alter (·.addGroup listener watches.length)
    .group <$> Compute.alter (·.addMembers s g 0 watches)

/-- What a request does. -/
def answer {β : Type} : Request κ σ β → Routine κ σ β
  | .look => Compute.read id
  | .compute m => .onStore m
  | .parse source => Routine.parse source
  | .registerFilter name filter =>
    Compute.change fun t => { t with compiler := t.compiler.register name filter }
  | .clearCache => Compute.change fun t => { t with compiler := t.compiler.clear }
  | .evaluate s source locals => E.evaluateSource s source locals
  | .newChild s isolated parent => Compute.alter (·.newScope s isolated parent)
  | .destroy s => E.destroy s
  | .watch s watch listener byValue =>
    .watcher <$> Compute.alter (·.addWatcher s (.procedure watch listener) byValue)
  | .watchExpression s source listener byValue => watchExpression s source listener byValue
  | .watchGroup s watches listener => watchGroup s watches listener
  | .watchCollection s watch listener =>
    .watcher <$> Compute.alter (·.addWatcher s (.collection watch listener {}) false)
  | .listen s event procedure => .listener <$> Compute.alter (·.addListener s event procedure)
  | .deregister r => Compute.change (·.deregister r)
  | .evalAsync s procedure => Compute.change (·.queueAsync s (.procedure procedure))
  | .applyAsync s procedure => Compute.change (·.queueApply s (.procedure procedure))
  | .postDigest s procedure => Compute.change (·.enqueue .postDigest s (.procedure procedure))
  | .digest s => E.digest s
  | .apply s procedure => E.apply (E.call procedure (.body s))
  | .applySource s source => E.apply (E.evaluateSource s source none)
  | .emit s name args => E.emit s name args
  | .broadcast s name args => E.broadcast s name args
  | .stop e => Compute.change (·.modifyEvent e (·.stop))
  | .prevent e => Compute.change (·.modifyEvent e (·.prevent))
  | .report e => E.reportError e
  | .flush => E.flush
  | .advance milliseconds => E.advance milliseconds

/-- Runs a program. -/
def execute {α : Type} : Program κ σ α → Routine κ σ α
  | .done result => .ofExcept result
  | .ask request next => do
    let result ← Compute.attempt (E.answer request)
    execute (next result)

/-- A program in two parts runs as its parts do, one after the other. -/
theorem execute_bind {α β : Type} (p : Program κ σ α) (f : α → Program κ σ β) :
    E.execute (p >>= f) = E.execute p >>= fun a => E.execute (f a) := by
  induction p with
  | done r => cases r <;> rfl
  | ask q next ih =>
    rw [Program.ask_bind]
    simp only [execute, ih]
    rw [bind_assoc]

theorem execute_attempt {α : Type} (p : Program κ σ α) :
    E.execute p.attempt = Compute.attempt (E.execute p) := by
  induction p with
  | done r => rfl
  | ask q next ih =>
    simp only [Program.attempt, execute, ih]
    exact (Compute.attempt_attempt_bind _ _).symm

end Engine

namespace Host

variable {κ σ : Type} (H : Host κ σ)

/-- Runs a procedure, with fewer than `limit` calls inside each other. -/
def invoke : Nat → κ → Invocation → Routine κ σ Value
  | 0, _, _ => .endless
  | limit + 1, procedure, how =>
    Engine.execute ⟨H.library, H.report, invoke limit, limit⟩ (H.procedure procedure how)

/-- The engine that runs the host's procedures. -/
def engine (limit : Nat) : Engine κ σ := ⟨H.library, H.report, H.invoke limit, limit⟩

/-- Runs a program of the host; `none` if it reaches the limit. -/
def run {α : Type} (limit : Nat) (p : Program κ σ α) (t : Tree κ σ) :
    Option (Except Error α × Tree κ σ) :=
  ((H.engine limit).execute p).runOn t

end Host

end DataBinding
