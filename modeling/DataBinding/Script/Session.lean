import DataBinding.Script.Play

/-!
# Sessions

A session plays the steps of a script on a tree, one after another, and reports after each what it
replied, what was logged meanwhile, and in what state the tree is.
-/

namespace DataBinding.Script

/-! ## The procedures of a script -/

namespace Procedure

/-- Tells a listener of a change. -/
def tell (id : String) (actions : List Action) (s : ScopeId) (change : Change) : Play Value := do
  Program.compute <| .change fun t =>
    let n := t.host.write <|
      .fired id (t.heap.snapshot change.new) (t.heap.snapshot change.old)
        (change.new.same change.old) (t.host.scopeName s)
    { t with host := (n.setRegister "new" change.new).setRegister "old" change.old }
  playAll ⟨s, none⟩ actions
  return .undefined

/-- Has a listener hear an event. -/
def hear (id : String) (actions : List Action) (e : EventId) (args : List Value) : Play Value := do
  let args := Value.array (← Program.compute (Store.making (·.newArray args.toArray)))
  match ← Program.look fun t : Scene => t.events[e]? with
  | none => return .undefined
  | some event =>
    Program.compute <| .change fun t =>
      let n := t.host.write <|
        .delivered id event.name (t.heap.snapshot args) (t.host.scopeName event.target)
          (event.current.map t.host.scopeName) event.prevented
      { t with host := n.setRegister "args" args }
    playAll ⟨event.current.getD event.target, some e⟩ actions
    return .undefined

/-- What a procedure does when it is called. -/
def play : Procedure → Invocation → Play Value
  | .watch id reading, .watch s => reading.play id s
  | .listener id actions, .changed s change => tell id actions s change
  | .task id actions, .task s => do
    Play.jot fun n => n.write (.ran id (n.scopeName s))
    playAll ⟨s, none⟩ actions
    return .undefined
  | .body id actions result, .body s => do
    playAll ⟨s, none⟩ actions
    Reading.playOptional id s result
  | .hearing id actions, .event e args => hear id actions e args
  | _, _ => return .undefined

end Procedure

/-- The host of a script.  A quiet one does not log the errors it is told of. -/
def host (quiet : Bool) : Host Procedure (Notebook Registration) where
  library := library
  report e n := if quiet then n else n.write (.failed e)
  procedure := Procedure.play

/-! ## Playing the steps -/

/-- How a session is set up. -/
structure Setup where
  config : Config := {}
  timed : Bool := false
  quiet : Bool := false

/-- The state of the tree after a step: the phase, the number of deferred jobs that wait to be
asked for, and the number of watchers of every scope. -/
structure Condition where
  phase : Option Phase
  pending : Nat
  watchers : List Nat

/-- What a step reports. -/
structure StepReport where
  result : Except Error Reply
  log : List LogEntry
  condition : Condition

/-- The state of the tree. -/
def Scene.condition (t : Scene) : Condition :=
  ⟨t.phase, t.deferral.pending, (t.scopes.map (·.watchers.length)).toList⟩

/-- The limit of a run. -/
def runLimit : Nat := 100000

/-- Plays steps on a tree; `none` if one of them has no end. -/
def playSteps (quiet : Bool) (t : Scene) : List Action → Option (List StepReport)
  | [] => some []
  | action :: rest => do
    let (result, t) ← (host quiet).run runLimit (action.play ⟨rootId, none⟩) t
    let report := ⟨result, t.store.host.log.reverse, Scene.condition t⟩
    let cleared : Scene :=
      { t with store := { t.store with host := { t.store.host with log := [] } } }
    return report :: (← playSteps quiet cleared rest)

/-- The tree at the start of a session. -/
def Setup.scene (setup : Setup) : Except Error Scene := do
  let config ← setup.config.validate
  return Tree.plant ⟨.empty, Notebook.empty.nameScope rootId "root"⟩ ⟨filters, .empty⟩ config
    setup.timed

/-- The reports of all steps; the error is that of the configuration. -/
def Setup.play (setup : Setup) (steps : List Action) : Except Error (Option (List StepReport)) :=
  setup.scene.map fun t => playSteps setup.quiet t steps

end DataBinding.Script
