import DataBinding.Config
import DataBinding.Tree.Journal

/-!
# Scope trees

The state of a scope tree: the store that expressions work on, the compiler with its cache, the
scopes with their watchers and listeners, what the tree is in the middle of, and the work that
waits.

The scopes inherit their properties along the prototypes of their objects.  That is a relation of
its own: a scope can be made to inherit from one scope and be the child of another.

Names that were never handed out read as an isolated scope without anything in it, and as a watcher
or listener that is not active, so every reading is total.
-/

namespace DataBinding

/-- The state of a scope tree.  `κ` names the procedures of the host, and `σ` is the state that the
host keeps for itself.  The journal has the last step first. -/
structure Tree (κ σ : Type) where
  store : Store σ
  compiler : Compiler
  config : Config
  scopes : Array Scope
  watchers : Array (Watcher κ) := #[]
  groups : Array (Group κ) := #[]
  announcements : Array (Announcement κ) := #[]
  listeners : Array (Listener κ) := #[]
  events : Array Event := #[]
  phase : Option Phase := none
  lastDirty : Option WatcherId := none
  queues : Queues κ := {}
  applyFlush : Option JobId := none
  deferral : Deferral
  journal : List (Step κ) := []

/-- The root of a tree. -/
def rootId : ScopeId := 0

/-- A registration that can be taken back: a watcher, the watchers of a group, the announcement of
a group without members, or an event listener. -/
inductive Registration where
  | watcher (w : WatcherId)
  | group (ws : List WatcherId)
  | announcement (a : Nat)
  | listener (l : ListenerId)
deriving Repr

namespace Tree

variable {κ σ : Type}

/-- A tree that has only its root. -/
def plant (store : Store σ) (compiler : Compiler) (config : Config) (timed : Bool) : Tree κ σ :=
  let (data, heap) := store.heap.newObject .empty none
  { store := { store with heap }
    compiler
    config
    scopes := #[{ data, parent := none, isolated := false }]
    deferral := { timed } }

/-! ## Reading -/

/-- A scope. -/
def scope (t : Tree κ σ) (s : ScopeId) : Scope :=
  t.scopes[s]?.getD { data := 0, parent := none, isolated := true, life := .gone }

/-- The object with the properties of a scope. -/
def data (t : Tree κ σ) (s : ScopeId) : Nat := (t.scope s).data

/-- The value of a property, inherited ones included. -/
def get (t : Tree κ σ) (s : ScopeId) (key : String) : Value := t.store.heap.get (t.data s) key

/-- Whether there is a property of that name, inherited ones included. -/
def has (t : Tree κ σ) (s : ScopeId) (key : String) : Bool :=
  (t.store.heap.find? key (t.data s)).isSome

/-- A watcher. -/
def watcher? (t : Tree κ σ) (w : WatcherId) : Option (Watcher κ) := t.watchers[w]?

/-- Whether a watcher is registered still. -/
def isActive (t : Tree κ σ) (w : WatcherId) : Bool := (t.watcher? w).any (·.active)

/-- The listeners of a scope for events of one name, in the order of registration. -/
def listenersFor (t : Tree κ σ) (s : ScopeId) (event : String) : List ListenerId :=
  (t.scope s).listeners.filter fun l => (t.listeners[l]?).any (·.event == event)

/-! ## Changing -/

/-- Changes a scope. -/
def modifyScope (t : Tree κ σ) (s : ScopeId) (f : Scope → Scope) : Tree κ σ :=
  { t with scopes := t.scopes.modify s f }

/-- Changes a watcher. -/
def modifyWatcher (t : Tree κ σ) (w : WatcherId) (f : Watcher κ → Watcher κ) : Tree κ σ :=
  { t with watchers := t.watchers.modify w f }

/-- Changes a group. -/
def modifyGroup (t : Tree κ σ) (g : GroupId) (f : Group κ → Group κ) : Tree κ σ :=
  { t with groups := t.groups.modify g f }

/-- Changes an event. -/
def modifyEvent (t : Tree κ σ) (e : EventId) (f : Event → Event) : Tree κ σ :=
  { t with events := t.events.modify e f }

/-- Writes a step into the journal. -/
def note (t : Tree κ σ) (step : Step κ) : Tree κ σ := { t with journal := step :: t.journal }

end Tree

end DataBinding
