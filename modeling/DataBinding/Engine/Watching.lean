import DataBinding.Engine
import DataBinding.Tree.Recording
import DataBinding.Tree.Registration
import DataBinding.Tree.Scheduling

/-!
# Checking watchers

To check a watcher is to compute what it observes and to compare that with its record.  A change
is then passed on to what the watcher does about changes: mostly to call a listener of the host.
-/

namespace DataBinding.Engine

variable {κ σ : Type} (E : Engine κ σ)

/-! ## Observing -/

/-- The value of an expression that is watched through its inputs.  It is computed anew unless the
inputs are the same as with the last value. -/
def observeInputs (s : ScopeId) (w : WatcherId) (e : Expression) (listener : κ)
    (memo : Option Memo) : Routine κ σ Value := do
  let inputs ← E.evaluateInputs s e
  match memo.filter (·.covers inputs) with
  | some memo => return memo.result
  | none =>
    let result ← E.evaluate s e none
    Compute.change (·.setKind w (.inputs e listener (some ⟨inputs, result⟩)))
    return result

/-- What a watcher observes at this moment. -/
def observe (s : ScopeId) (w : WatcherId) : WatchKind κ → Routine κ σ Value
  | .procedure watch _ | .member watch _ _ => E.call watch (.watch s)
  | .expression e _ | .constant e _ | .oneTime e _ _ => E.evaluate s e none
  | .inputs e listener memo => E.observeInputs s w e listener memo
  | .collection watch _ _ => do
    let v ← E.call watch (.watch s)
    .alter (·.noticeCollection w v)

/-- Computes what a watcher observes and takes it in; the answer is the change, if there is one. -/
def check (w : WatcherId) : Routine κ σ (Option Change) := do
  Compute.change (·.note (.checked w))
  match ← Compute.read (·.watcher? w) with
  | none => return none
  | some watcher =>
    let new ← E.observe watcher.scope w watcher.kind
    Compute.alterEndless (·.record w new)

/-! ## Reacting -/

/-- Tells a listener of a change. -/
def tell (listener : κ) (s : ScopeId) (change : Change) : Routine κ σ Unit := do
  discard <| E.call listener (.changed s change)

/-- Writes an element of one of the arrays of a group. -/
def writeMember (a index : Nat) (v : Value) : Routine κ σ Unit := do
  let h ← Compute.read (·.store.heap)
  let items ← Compute.ofExcept (writeItem (h.items a) index v)
  .onStore (Store.changing (·.setItems a items))

/-- Passes a change of a member on to its group, whose listener is queued unless it is already. -/
def reactMember (s : ScopeId) (g : GroupId) (index : Nat) (change : Change) :
    Routine κ σ Unit := do
  match ← Compute.read fun t : Tree κ σ => t.groups[g]? with
  | none => pure ()
  | some group =>
    writeMember group.newValues index change.new
    writeMember group.oldValues index change.old
    if ← Compute.alter (·.scheduleGroup g) then
      Compute.change (·.queueAsync s (.group g))

/-- Reports a change of a one-time expression.  If the value has settled, the end of the watch is
left to the end of the digest. -/
def reactOneTime (s : ScopeId) (w : WatcherId) (e : Expression) (listener : κ)
    (change : Change) : Routine κ σ Unit := do
  Compute.change (·.setKind w (.oneTime e listener change.new))
  let result ← Compute.attempt (E.tell listener s change)
  if ← Compute.read (·.store.heap.settled e.isLiteral change.new) then
    Compute.change (·.enqueue .postDigest s (.settle w))
  .ofExcept result

/-- Does what a watcher does about a change. -/
def react (s : ScopeId) (w : WatcherId) (change : Change) : WatchKind κ → Routine κ σ Unit
  | .procedure _ listener | .expression _ listener | .inputs _ listener _ =>
    E.tell listener s change
  | .constant _ listener => do
    let result ← Compute.attempt (E.tell listener s change)
    Compute.change (·.removeWatcher w)
    .ofExcept result
  | .oneTime e listener _ => E.reactOneTime s w e listener change
  | .member _ g index => reactMember s g index change
  | .collection watch listener state => do
    let change ← Compute.alter (·.reportCollection w state watch listener)
    E.tell listener s change

/-- Does what a watcher does about a change, as the watcher is at this moment. -/
def notify (w : WatcherId) (change : Change) : Routine κ σ Unit := do
  match ← Compute.read (·.watcher? w) with
  | none => pure ()
  | some watcher => E.react watcher.scope w change watcher.kind

end DataBinding.Engine
