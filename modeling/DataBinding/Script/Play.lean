import DataBinding.Host
import DataBinding.Script.Values

/-!
# Playing scripts

What each action of a script asks of the tree.  A list of actions is played in order and ends at
the first error, except that the error of a tolerant action is only noted.
-/

namespace DataBinding.Script

/-- A scope tree that a script drives. -/
abbrev Scene : Type := Tree Procedure (Notebook Registration)

/-- A program of a script. -/
abbrev Play (α : Type) : Type 1 := Program Procedure (Notebook Registration) α

/-- Where an action is played: the current scope, and the event if one is being heard. -/
structure Stage where
  scope : ScopeId
  event : Option EventId

namespace Play

/-- Adds a line to the log. -/
def write (entry : Heap → LogEntry) : Play Unit :=
  .compute (.change fun s => { s with host := s.host.write (entry s.heap) })

/-- Changes the notebook. -/
def jot (f : Notebook Registration → Notebook Registration) : Play Unit :=
  .compute (.change fun s => { s with host := f s.host })

/-- Replies with a value, which is also put into a register if there is one for it. -/
def reply (register : Option String) (v : Value) : Play Reply := .compute (give register v)

/-- The scope of a name, or else the current one. -/
def scopeOf (here : ScopeId) : Option String → Play ScopeId
  | some name => .look fun t : Scene => (t.store.host.scopes.get? name).getD here
  | none => pure here

/-- What there is to know of a scope. -/
def info (s : ScopeId) : Play ScopeInfo :=
  .look fun t : Scene =>
    let name := t.store.host.scopeName
    let scope := t.scope s
    { phase := t.phase
      watchers := scope.watchers.length
      children := scope.children.map name
      parent := scope.parent.map name
      root := name rootId
      isRoot := scope.parent.isNone
      isolated := scope.isolated
      destroyed := scope.isDestroyed
      ttl := t.config.digestTtl
      cached := t.compiler.cache.size }

/-- What there is to know of an event. -/
def eventReply (e : EventId) : Play Reply :=
  .look fun t : Scene =>
    match t.events[e]? with
    | some event => .event event.name (t.store.host.scopeName event.target) event.prevented
    | none => .nothing

/-- The filter of scripts with a name. -/
def filterNamed (name : String) : Filter := (filters.get? name).getD ⟨name, false⟩

/-- Does an action on expressions. -/
def expression (locals : Option Value) (register : Option String) : ExpressionDeed → Play Reply
  | .eval source context => do
    let context ← .compute context.build
    let e ← .request (.parse source)
    reply register (← .compute (e.eval library callLimit context locals))
  | .assign source context x => do
    let context ← .compute context.build
    let x ← .compute x.build
    let e ← .request (.parse source)
    reply register (← .compute (e.assign library callLimit context x locals))
  | .inputs source context => do
    let e ← .request (.parse source)
    .compute do
      return .outcomes (← e.inputs.mapM fun part => do
        let context ← context.build
        drawn (e.evalPart part library callLimit context locals))
  | .same source other => do
    discard <| .request (.parse source)
    discard <| .request (.parse other)
    return .flag (Compiler.key source == Compiler.key other)
  | .cached => .look fun t : Scene => .count t.compiler.cache.size
  | .clear => do
    .request .clearCache
    return .nothing
  | .register name filter => do
    .request (.registerFilter name (filterNamed filter))
    .look fun t : Scene => .count t.compiler.registry.size
  | .hasFilter name => .look fun t : Scene => .flag (t.compiler.registry.has name)

/-- Keeps the registration of a watch under a name. -/
def keepWatch (id : String) (r : Registration) : Play Reply := do
  jot fun n => { n with watches := n.watches.set id r }
  return .nothing

/-- Takes a registration back, if there is one. -/
def takeBack (r : Option Registration) : Play Reply := do
  match r with
  | some r =>
    .request (.deregister r)
    return .flag true
  | none => return .flag false

/-- The value of a watch after its body has run. -/
def origin (s : ScopeId) : Origin → Play Value
  | .property key => .look fun t : Scene => t.get s key
  | .expression source => .request (.evaluate s source none)
  | .failure text => .fail (.callback text)
  | .counter name => .compute (counting name)
  | .fixed v => .compute v.build
  | .nothing => pure .undefined

end Play

open Play

mutual

/-- Plays an action. -/
def Action.play (here : Stage) : Action → Play Reply
  | .mk scope locals register _ deed => do
    let locals ← .compute (buildOptional locals)
    let s ← scopeOf here.scope scope
    deed.play { here with scope := s } locals register

/-- Does what an action does. -/
def Deed.play (here : Stage) (locals : Option Value) (register : Option String) :
    Deed → Play Reply
  | .value deed => .compute (deed.perform register)
  | .expression deed => expression locals register deed
  | .set key v => do
    let v ← .compute v.build
    let o ← .look fun t : Scene => t.data here.scope
    .compute (Store.changing (·.setOwn o key v))
    return .nothing
  | .get key => do reply register (← .look fun t : Scene => t.get here.scope key)
  | .has key => .look fun t : Scene => .flag (t.has here.scope key)
  | .data => do reply register (.object (← .look fun t : Scene => t.data here.scope))
  | .eval source => do reply register (← .request (.evaluate here.scope source locals))
  | .evalBody id body result => do
    playAll ⟨here.scope, none⟩ body
    reply register (← Reading.playOptional id here.scope result)
  | .child name isolated parent => do
    let parent ← scopeOf here.scope parent
    let child ← .request (.newChild here.scope isolated parent)
    jot (·.nameScope child name)
    return .nothing
  | .info => do return .scope (← info here.scope)
  | .destroy => do
    .request (.destroy here.scope)
    return .nothing
  | .digest => do
    .request (.digest here.scope)
    return .nothing
  | .phase => do
    let phase ← .look fun t : Scene => t.phase
    write fun _ => .phase phase
    return .nothing
  | .watch id watch byValue body => do
    keepWatch id (← .request (.watch here.scope (.watch id watch) (.listener id body) byValue))
  | .watchExpression id source byValue body => do
    keepWatch id
      (← .request (.watchExpression here.scope source (.listener id body) byValue))
  | .watchGroup id watches body => do
    let watches := watches.mapIdx fun i watch => Procedure.watch (id ++ "." ++ Nat.repr i) watch
    keepWatch id (← .request (.watchGroup here.scope watches (.listener id body)))
  | .watchCollection id watch body => do
    keepWatch id (← .request (.watchCollection here.scope (.watch id watch) (.listener id body)))
  | .unwatch id => do takeBack (← .look fun t : Scene => t.store.host.watches.get? id)
  | .apply id body result => do
    reply register (← .request (.apply here.scope (.body id body result)))
  | .applySource source => do reply register (← .request (.applySource here.scope source))
  | .queue queue id body => do
    .request <| match queue with
      | .async => .evalAsync here.scope (.task id body)
      | .apply => .applyAsync here.scope (.task id body)
      | .postDigest => .postDigest here.scope (.task id body)
    return .nothing
  | .flush => do return .count (← .request .flush)
  | .advance milliseconds => do
    .request (.advance milliseconds)
    return .nothing
  | .currentClock => return .failure .noClock
  | .listen id event body => do
    let r ← .request (.listen here.scope event (.hearing id body))
    jot fun n => { n with listeners := n.listeners.set id r }
    return .nothing
  | .unlisten id => do takeBack (← .look fun t : Scene => t.store.host.listeners.get? id)
  | .emit event args => do
    let args ← .compute (buildAll args)
    eventReply (← .request (.emit here.scope event args))
  | .broadcast event args => do
    let args ← .compute (buildAll args)
    eventReply (← .request (.broadcast here.scope event args))
  | .stop => do
    match here.event with
    | some e => .request (.stop e)
    | none => pure ()
    return .nothing
  | .prevent => do
    match here.event with
    | some e => .request (.prevent e)
    | none => pure ()
    return .nothing
  | .report text => do
    .request (.report (.callback text))
    return .nothing
  | .fail text => .fail (.callback text)
  | .note v => do
    let v ← .compute v.build
    write fun h => .note (h.snapshot v)
    return .nothing
  | .once id body => do
    if ← .look fun t : Scene => t.store.host.once.contains id then return .flag false
    else
      jot fun n => { n with once := id :: n.once }
      playAll here body
      return .flag true

/-- Plays several actions. -/
def playAll (here : Stage) : List Action → Play Unit
  | [] => pure ()
  | .mk scope locals register tolerant deed :: rest => do
    match ← ((Action.mk scope locals register tolerant deed).play here).attempt with
    | .ok _ => playAll here rest
    | .error e =>
      if tolerant then do
        write fun _ => .caught e
        playAll here rest
      else .fail e

/-- Computes what a watch observes. -/
def Reading.play (id : String) (s : ScopeId) : Reading → Play Value
  | .mk traced body source => do
    if traced then write fun _ => .checked id
    playAll ⟨s, none⟩ body
    origin s source

/-- Computes what a watch observes, or undefined. -/
def Reading.playOptional (id : String) (s : ScopeId) : Option Reading → Play Value
  | some reading => reading.play id s
  | none => pure .undefined

end

end DataBinding.Script
