import DataBinding.Tree

/-!
# What watchers and groups keep

A watcher records the value it took for a change: by identity, or frozen if it compares contents.
The other state that a watch needs from one check or report to the next is kept with the watcher
too, and that of a group with the group.
-/

namespace DataBinding

/-- What a watcher records of a value. -/
def Heap.recorded? (h : Heap) (byValue : Bool) (v : Value) : Option Frozen :=
  if byValue then h.freeze? v else some (.leaf v)

namespace Tree

variable {κ σ : Type}

/-- Takes in what a watcher observed.  If that agrees with what the watcher recorded last there is
no change; else it is recorded, and the change has the last record as its old value, or the new
value itself if there is none. -/
def record (t : Tree κ σ) (w : WatcherId) (new : Value) : Option (Option Change × Tree κ σ) :=
  match t.watcher? w with
  | none => some (none, t)
  | some watcher =>
    let h := t.store.heap
    if watcher.last.any (h.agrees · new) then some (none, t)
    else
      (h.recorded? watcher.byValue new).map fun frozen =>
        let (old, heap) := match watcher.last with
          | some last => last.thaw h
          | none => (new, h)
        let t := t.modifyWatcher w ({ · with last := some frozen })
        (some ⟨new, old⟩, { t with store := { t.store with heap } })

/-- Changes what a watcher observes and does. -/
def setKind (t : Tree κ σ) (w : WatcherId) (kind : WatchKind κ) : Tree κ σ :=
  t.modifyWatcher w ({ · with kind })

/-- Takes a value of a collection in; the answer is the count of changes. -/
def noticeCollection (t : Tree κ σ) (w : WatcherId) (v : Value) : Value × Tree κ σ :=
  match t.watcher? w with
  | some { kind := .collection watch listener state, .. } =>
    let state := state.notice t.store.heap v
    (.ofNat state.changes, t.setKind w (.collection watch listener state))
  | _ => (.undefined, t)

/-- The change of a collection that its listener is to be told of.  It becomes the last report. -/
def reportCollection (t : Tree κ σ) (w : WatcherId) (state : Collection) (watch listener : κ) :
    Change × Tree κ σ :=
  let (old, heap) := state.oldValue t.store.heap
  let t := t.setKind w (.collection watch listener (state.report t.store.heap))
  (⟨state.latest, old⟩, { t with store := { t.store with heap } })

/-- Marks the listener of a group as scheduled, and tells whether it was not. -/
def scheduleGroup (t : Tree κ σ) (g : GroupId) : Bool × Tree κ σ :=
  ((t.groups[g]?).any (!·.scheduled), t.modifyGroup g ({ · with scheduled := true }))

/-- What the listener of a group is told: the array of the values now, and the array of the values
before, which on the first call is the same array. -/
def groupChange (t : Tree κ σ) (g : GroupId) (group : Group κ) : Change × Tree κ σ :=
  let new := Value.array group.newValues
  (⟨new, if group.firstRun then new else .array group.oldValues⟩,
    t.modifyGroup g ({ · with firstRun := false }))

/-- Marks the listener of a group as not scheduled. -/
def unscheduleGroup (t : Tree κ σ) (g : GroupId) : Tree κ σ :=
  t.modifyGroup g ({ · with scheduled := false })

end Tree

end DataBinding
