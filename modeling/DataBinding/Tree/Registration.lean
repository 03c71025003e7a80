import DataBinding.Tree

/-!
# Registrations

Scopes, watchers and listeners come and go.  To register a watcher, to remove one, or to tear a
scope down also forgets the watcher at which the current pass could end early: what that watcher
vouched for may no longer hold.
-/

namespace DataBinding.Tree

variable {κ σ : Type}

/-! ## Watchers -/

/-- Registers a watcher.  A scope that is gone does not take it. -/
def addWatcher (t : Tree κ σ) (s : ScopeId) (kind : WatchKind κ) (byValue : Bool) :
    WatcherId × Tree κ σ :=
  let w := t.watchers.size
  (w,
    { t.modifyScope s (·.addWatcher w) with
      watchers := t.watchers.push { scope := s, kind, byValue }
      lastDirty := none })

/-- Takes a watcher away.  To do so again has no effect. -/
def removeWatcher (t : Tree κ σ) (w : WatcherId) : Tree κ σ :=
  match t.watcher? w with
  | some watcher =>
    let t := t.modifyWatcher w ({ · with active := false })
    if w ∈ (t.scope watcher.scope).watchers then
      { t.modifyScope watcher.scope (·.removeWatcher w) with lastDirty := none }
    else t
  | none => t

/-- A watcher that was taken away is not active. -/
theorem isActive_removeWatcher_self (t : Tree κ σ) (w : WatcherId) :
    (t.removeWatcher w).isActive w = false := by
  unfold removeWatcher
  cases h : t.watcher? w with
  | none => simp [isActive, h]
  | some watcher =>
    have inactive : (t.modifyWatcher w ({ · with active := false })).isActive w = false := by
      simp only [isActive, watcher?] at h ⊢
      simp [modifyWatcher, Array.getElem?_modify, h]
    dsimp only
    split
    · exact inactive
    · exact inactive

/-- No other watcher is touched. -/
theorem watcher?_removeWatcher_of_ne (t : Tree κ σ) {w v : WatcherId} (h : v ≠ w) :
    (t.removeWatcher w).watcher? v = t.watcher? v := by
  unfold removeWatcher
  cases hw : t.watcher? w with
  | none => rfl
  | some watcher =>
    have kept : (t.modifyWatcher w ({ · with active := false })).watcher? v = t.watcher? v := by
      simp [modifyWatcher, watcher?, Array.getElem?_modify, Ne.symm h]
    dsimp only
    split
    · exact kept
    · exact kept

/-- A new watcher is active, even where its scope did not take it. -/
theorem isActive_addWatcher_self (t : Tree κ σ) (s : ScopeId) (kind : WatchKind κ)
    (byValue : Bool) :
    (t.addWatcher s kind byValue).2.isActive (t.addWatcher s kind byValue).1 := by
  simp [addWatcher, isActive, watcher?, modifyScope]

/-- Takes several watchers away. -/
def removeWatchers (t : Tree κ σ) (ws : List WatcherId) : Tree κ σ := ws.foldl removeWatcher t

/-- Takes a one-time watcher away, if the value it reported last has settled. -/
def settle (t : Tree κ σ) (w : WatcherId) : Tree κ σ :=
  match t.watcher? w with
  | some { kind := .oneTime e _ reported, .. } =>
    if t.store.heap.settled e.isLiteral reported then t.removeWatcher w else t
  | _ => t

/-! ## Groups -/

/-- Makes a group of so many members, none of which is registered yet. -/
def addGroup (t : Tree κ σ) (listener : κ) (members : Nat) : GroupId × Tree κ σ :=
  let blank := Array.replicate members Value.undefined
  let (newValues, heap) := t.store.heap.newArray blank
  let (oldValues, heap) := heap.newArray blank
  (t.groups.size,
    { t with
      store := { t.store with heap }
      groups := t.groups.push { listener, newValues, oldValues } })

/-- Registers the members of a group from an index on. -/
def addMembers (t : Tree κ σ) (s : ScopeId) (g : GroupId) (index : Nat) :
    List κ → List WatcherId × Tree κ σ
  | [] => ([], t)
  | watch :: rest =>
    let (w, t) := t.addWatcher s (.member watch g index) false
    let (ws, t) := t.addMembers s g (index + 1) rest
    (w :: ws, t)

/-- Makes an announcement. -/
def addAnnouncement (t : Tree κ σ) (listener : κ) : Nat × Tree κ σ :=
  (t.announcements.size, { t with announcements := t.announcements.push { listener } })

/-- Cancels an announcement. -/
def cancelAnnouncement (t : Tree κ σ) (a : Nat) : Tree κ σ :=
  { t with announcements := t.announcements.modify a ({ · with cancelled := true }) }

/-! ## Listeners -/

/-- Registers a listener.  A scope whose destruction has begun does not take it. -/
def addListener (t : Tree κ σ) (s : ScopeId) (event : String) (procedure : κ) :
    ListenerId × Tree κ σ :=
  let l := t.listeners.size
  (l,
    { t.modifyScope s (·.addListener l) with
      listeners := t.listeners.push { scope := s, event, procedure } })

/-- Takes a listener away.  To do so again has no effect. -/
def removeListener (t : Tree κ σ) (l : ListenerId) : Tree κ σ :=
  match t.listeners[l]? with
  | some listener =>
    { t.modifyScope listener.scope (·.removeListener l) with
      listeners := t.listeners.modify l ({ · with active := false }) }
  | none => t

/-- Takes a registration back. -/
def deregister (t : Tree κ σ) : Registration → Tree κ σ
  | .watcher w => t.removeWatcher w
  | .group ws => t.removeWatchers ws
  | .announcement a => t.cancelAnnouncement a
  | .listener l => t.removeListener l

/-! ## Scopes -/

/-- Makes a scope that is a child of `parent` and, unless it is isolated, inherits from `s`. -/
def newScope (t : Tree κ σ) (s : ScopeId) (isolated : Bool) (parent : ScopeId) :
    ScopeId × Tree κ σ :=
  let child := t.scopes.size
  let proto := if isolated then none else some (t.data s)
  let (data, heap) := t.store.heap.newObject .empty proto
  (child,
    { t.modifyScope parent (·.addChild child) with
      store := { t.store with heap }
      scopes := (t.modifyScope parent (·.addChild child)).scopes.push
        { data, parent := some parent, isolated } })

/-- Marks the beginning of the destruction of a scope. -/
def beginDestroy (t : Tree κ σ) (s : ScopeId) : Tree κ σ :=
  t.modifyScope s ({ · with life := .leaving })

/-- Tears a scope down: it is no child of its parent any more and has no watchers and listeners.
Its own children stay with it. -/
def tearDown (t : Tree κ σ) (s : ScopeId) : Tree κ σ :=
  let t := match (t.scope s).parent with
    | some p => t.modifyScope p (·.removeChild s)
    | none => t
  { t.modifyScope s (·.tornDown) with lastDirty := none }

end DataBinding.Tree
