import DataBinding.Script.Values

/-!
# Trials of single expressions

A trial compiles one expression, evaluates or assigns it against given values, and draws what
came of it.
-/

namespace DataBinding.Script

/-- What to try. -/
structure Trial where
  source : String
  context : Template
  locals : Option Template
  withInputs : Bool
  assigned : Option Template

/-- What came of a trial: the values of the inputs, if asked for, the value or error, and the
context, the locals and the log afterwards. -/
structure TrialReport where
  inputs : Option (List (Except Error Snapshot))
  value : Except Error Snapshot
  context : Snapshot
  locals : Option Snapshot
  log : List LogEntry

namespace Trial

/-- Runs a trial; the error is that of compiling. -/
def perform (t : Trial) : Noting Unit TrialReport := do
  let context ← t.context.build
  let locals ← buildOptional t.locals
  let e ← Compute.ofExcept ((Compiler.mk filters .empty).parse t.source).1
  let inputs ←
    if t.withInputs then
      some <$> e.inputs.mapM fun part => drawn (e.evalPart part library callLimit context locals)
    else pure none
  let value ← match t.assigned with
    | some assigned =>
      let v ← assigned.build
      drawn (e.assign library callLimit context v locals)
    | none => drawn (e.eval library callLimit context locals)
  let after ← draw context
  let localsAfter ← match locals with
    | some v => some <$> draw v
    | none => pure none
  return ⟨inputs, value, after, localsAfter, ← .read fun s => s.host.log.reverse⟩

/-- The outcome of a trial in an empty heap; `none` if it has no end. -/
def run (t : Trial) : Option (Except Error TrialReport) :=
  (t.perform.runOn ⟨.empty, .empty⟩).map (·.1)

end Trial

end DataBinding.Script
