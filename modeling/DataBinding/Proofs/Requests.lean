import DataBinding.Host
import DataBinding.Proofs.Runs
import DataBinding.Proofs.Shape

/-!
# What requests do to a tree

A program of the host changes a tree by requests alone, and a request changes it in few elementary
ways: these are the constructors of `Tree.Act`.  A relation between trees that admits them holds
between the trees before and after whatever a program does (`leads_execute`).

Two things are left to the relation itself.  A scope is torn down at the end of a destruction only,
which began when the scope was alive, and `Admits` says so.  And a program may ask for a digest or
an apply, which is refused while a phase is active and else is a matter of its own, or for the
deferred jobs, which digest and apply in turn: `Engine.Tame` asks that these respect the relation.

What the running of deferred jobs changes by itself is `Tree.Tick`.  For most relations such a
change is like any other, and `Defers` says that they admit it.

A task that is queued for the apply has the apply deferred in the same step.  For a relation that
does not hold in between, `Allows` asks for less than `Admits`: that it holds across the whole step.
`Permits` asks for less still.  It leaves the calls of procedures out, and of what `Tree.Act` allows
for the other changes it takes what the engine makes use of (`Tree.Edit`).  `Grants` does with the
edits that preserve what there is of watchers and groups (`Tree.Preserves`), and `Concedes` is the
same with the calls of procedures.
-/

namespace DataBinding

open Compute (Leads)

variable {κ σ α : Type}

/-- The registration that a request takes back, if it does. -/
def Request.takenBack? {β : Type} : Request κ σ β → Option Registration
  | .deregister r => some r
  | _ => none

/-- The watchers that go with a registration. -/
def Registration.watchers : Registration → List WatcherId
  | .watcher w => [w]
  | .group ws => ws
  | .announcement _ | .listener _ => []

/-- An elementary change of a tree by a request. -/
inductive Tree.Act : Tree κ σ → Tree κ σ → Prop
  | store (t : Tree κ σ) (store : Store σ) : Act t { t with store }
  | compiler (t : Tree κ σ) (compiler : Compiler) : Act t { t with compiler }
  | groups (t : Tree κ σ) (groups : Array (Group κ)) : Act t { t with groups }
  | announcements (t : Tree κ σ) (announcements : Array (Announcement κ)) :
    Act t { t with announcements }
  | events (t : Tree κ σ) (events : Array Event) : Act t { t with events }
  | called (t : Tree κ σ) (procedure : κ) (how : Invocation) :
    Act t (t.note (.called procedure how))
  | reported (t : Tree κ σ) (e : Error) : Act t (t.note (.reported e))
  | queueAsync (t : Tree κ σ) (s : ScopeId) (work : Work κ) : Act t (t.queueAsync s work)
  | enqueue (t : Tree κ σ) {q : Queue} (hq : q ≠ .async) (s : ScopeId) (work : Work κ) :
    Act t (t.enqueue q s work)
  | armApply (t : Tree κ σ) : Act t t.armApply
  | newScope (t : Tree κ σ) (s : ScopeId) (isolated : Bool) (parent : ScopeId) :
    Act t (t.newScope s isolated parent).2
  | addWatcher (t : Tree κ σ) (s : ScopeId) (kind : WatchKind κ) (byValue : Bool) :
    Act t (t.addWatcher s kind byValue).2
  | removeWatcher (t : Tree κ σ) (w : WatcherId) : Act t (t.removeWatcher w)
  | addListener (t : Tree κ σ) (s : ScopeId) (event : String) (procedure : κ) :
    Act t (t.addListener s event procedure).2
  | removeListener (t : Tree κ σ) (l : ListenerId) : Act t (t.removeListener l)

/-- The call of a procedure that a step notes. -/
def Step.call? : Step κ → Option (κ × Invocation)
  | .called procedure how => some (procedure, how)
  | _ => none

/-- The calls of procedures that the journal notes, the last one first. -/
def Tree.calls (t : Tree κ σ) : List (κ × Invocation) := t.journal.filterMap Step.call?

/-- The group whose listener a task is queued for, if it is. -/
def Work.group? : Work κ → Option GroupId
  | .group g => some g
  | _ => none

/-- The group that a watcher is a member of, if it is. -/
def WatchKind.group? : WatchKind κ → Option GroupId
  | .member _ g _ => some g
  | _ => none

/-- The watcher of an expression is no member of a group. -/
lemma WatchKind.group?_ofExpression (e : Expression) (listener : κ) (byValue : Bool) :
    (ofExpression e listener byValue).group? = none := by
  unfold ofExpression
  split_ifs <;> rfl

/-- The watcher of an expression remembers nothing at first. -/
lemma WatchKind.forget_ofExpression (e : Expression) (listener : κ) (byValue : Bool) :
    (ofExpression e listener byValue).forget = ofExpression e listener byValue := by
  unfold ofExpression
  split_ifs <;> rfl

/-- Makes a group and registers its members. -/
def Tree.formGroup (t : Tree κ σ) (s : ScopeId) (watches : List κ) (listener : κ) :
    List WatcherId × Tree κ σ :=
  (t.addGroup listener watches.length).2.addMembers s (t.addGroup listener watches.length).1 0
    watches

/-- An edit of a tree: a change that a request makes in one step without calling a procedure.  The
members of a group are registered with it, and its listener is queued by none of these changes. -/
inductive Tree.Edit : Tree κ σ → Tree κ σ → Prop
  | store (t : Tree κ σ) (store : Store σ) : Edit t { t with store }
  | compiler (t : Tree κ σ) (compiler : Compiler) : Edit t { t with compiler }
  | events (t : Tree κ σ) (events : Array Event) : Edit t { t with events }
  | reported (t : Tree κ σ) (e : Error) : Edit t (t.note (.reported e))
  | modifyGroup (t : Tree κ σ) (g : GroupId) (f : Group κ → Group κ) : Edit t (t.modifyGroup g f)
  | formGroup (t : Tree κ σ) (s : ScopeId) (watches : List κ) (listener : κ) :
    Edit t (t.formGroup s watches listener).2
  | addAnnouncement (t : Tree κ σ) (listener : κ) : Edit t (t.addAnnouncement listener).2
  | cancelAnnouncement (t : Tree κ σ) (a : ℕ) : Edit t (t.cancelAnnouncement a)
  | queueAsync (t : Tree κ σ) (s : ScopeId) {work : Work κ} (hwork : work.group? = none) :
    Edit t (t.queueAsync s work)
  | queueApply (t : Tree κ σ) (s : ScopeId) {work : Work κ} (hwork : work.group? = none) :
    Edit t (t.queueApply s work)
  | postpone (t : Tree κ σ) (s : ScopeId) {work : Work κ} (hwork : work.group? = none) :
    Edit t (t.enqueue .postDigest s work)
  | armApply (t : Tree κ σ) : Edit t t.armApply
  | newScope (t : Tree κ σ) (s : ScopeId) (isolated : Bool) (parent : ScopeId) :
    Edit t (t.newScope s isolated parent).2
  | addWatcher (t : Tree κ σ) (s : ScopeId) {kind : WatchKind κ} (byValue : Bool)
    (hkind : kind.group? = none) : Edit t (t.addWatcher s kind byValue).2
  | removeWatcher (t : Tree κ σ) (w : WatcherId) : Edit t (t.removeWatcher w)
  | addListener (t : Tree κ σ) (s : ScopeId) (event : String) (procedure : κ) :
    Edit t (t.addListener s event procedure).2
  | removeListener (t : Tree κ σ) (l : ListenerId) : Edit t (t.removeListener l)

/-- What there is of watchers and groups is preserved: the watchers stay active, the groups stay as
they are, and a watcher that comes remembers nothing yet. -/
structure Tree.Preserves (t u : Tree κ σ) : Prop where
  isActive : ∀ w, t.isActive w = true → u.isActive w = true
  group : ∀ {g : GroupId} {group : Group κ}, t.groups[g]? = some group → u.groups[g]? = some group
  fresh : ∀ {w watcher}, t.watcher? w = none → u.watcher? w = some watcher →
    watcher.kind.forget = watcher.kind

/-- An elementary change of a tree by the running of deferred jobs: a job is taken, the deferred
apply is no longer expected, the clock is moved on. -/
inductive Tree.Tick : Tree κ σ → Tree κ σ → Prop
  | takeFirst {t u : Tree κ σ} {job : Job} (h : t.takeFirstJob? = some (job, u)) : Tick t u
  | takeDue {t u : Tree κ σ} {job : Job} {deadline : ℕ}
    (h : t.takeDueJob? deadline = some (job, u)) : Tick t u
  | disarm (t : Tree κ σ) : Tick t { t with applyFlush := none }
  | clock (t : Tree κ σ) (now : ℕ) : Tick t (t.setClock now)

/-- The relation holds across every change that a request makes by itself. -/
structure Admits (R : Tree κ σ → Tree κ σ → Prop) : Prop where
  act : ∀ {t u}, t.Act u → R t u
  beginDestroy : ∀ {t s}, (t.scope s).isDestroyed = false → R t (t.beginDestroy s)
  tearDown : ∀ {t u s}, (t.scope s).isDestroyed = false → R (t.beginDestroy s) u →
    R t (u.tearDown s)

/-- The relation holds across every change that a request makes in one step: a task that is queued
for the apply has the apply deferred. -/
structure Allows (R : Tree κ σ → Tree κ σ → Prop) : Prop where
  act : ∀ {t u}, t.Act u → u.queues.apply = t.queues.apply → R t u
  queueApply : ∀ t s work, R t (t.queueApply s work)
  beginDestroy : ∀ {t s}, (t.scope s).isDestroyed = false → R t (t.beginDestroy s)
  tearDown : ∀ {t u s}, (t.scope s).isDestroyed = false → R (t.beginDestroy s) u →
    R t (u.tearDown s)

/-- The relation holds across every change that a request makes in one step without calling a
procedure. -/
structure Permits (R : Tree κ σ → Tree κ σ → Prop) : Prop where
  edit : ∀ {t u}, t.Edit u → R t u
  beginDestroy : ∀ {t s}, (t.scope s).isDestroyed = false → R t (t.beginDestroy s)
  tearDown : ∀ {t u s}, (t.scope s).isDestroyed = false → R (t.beginDestroy s) u →
    R t (u.tearDown s)

/-- The relation holds across every change that a request makes in one step without calling a
procedure, if the change preserves what there is of watchers and groups. -/
structure Grants (R : Tree κ σ → Tree κ σ → Prop) : Prop where
  edit : ∀ {t u}, t.Edit u → t.Preserves u → R t u
  beginDestroy : ∀ {t s}, (t.scope s).isDestroyed = false → R t (t.beginDestroy s)
  tearDown : ∀ {t u s}, (t.scope s).isDestroyed = false → R (t.beginDestroy s) u →
    R t (u.tearDown s)

/-- The relation holds across every change that a request makes in one step, if the change preserves
what there is of watchers and groups. -/
structure Concedes (R : Tree κ σ → Tree κ σ → Prop) : Prop extends Grants R where
  called : ∀ t procedure how, R t (t.note (.called procedure how))

/-- The relation holds across every change that the running of deferred jobs makes, too. -/
structure Defers (R : Tree κ σ → Tree κ σ → Prop) : Prop extends Admits R where
  tick : ∀ {t u}, t.Tick u → R t u

/-- What runs as the body of an apply: a procedure or an expression that a program asks to apply, or
the tasks that wait for an apply. -/
inductive Engine.IsBody (E : Engine κ σ) : Routine κ σ Value → Prop
  | procedure (procedure : κ) (s : ScopeId) : IsBody E (E.call procedure (.body s))
  | source (s : ScopeId) (source : String) : IsBody E (E.evaluateSource s source none)
  | tasks : IsBody E (do E.drain .apply; return .undefined)

/-- What a program asks for respects the relation, as far as it calls procedures or is a digest or
an apply: the delivery of events, the body of an apply, digests, applies and deferred jobs. -/
structure Engine.Heeds (E : Engine κ σ) (R : Tree κ σ → Tree κ σ → Prop) : Prop where
  deliver : ∀ e name args s, Leads R (E.deliver e name args s)
  body : ∀ procedure s, Leads R (E.call procedure (.body s))
  digest : ∀ s, Leads R (E.digest s)
  apply : ∀ {body}, E.IsBody body → Leads R body → Leads R (E.apply body)
  flush : Leads R E.flush
  advance : ∀ milliseconds, Leads R (E.advance milliseconds)

/-- The procedures of the host respect the relation, and so do digests, applies and deferred jobs
that are asked for. -/
structure Engine.Tame (E : Engine κ σ) (R : Tree κ σ → Tree κ σ → Prop) : Prop where
  invoke : ∀ procedure how, Leads R (E.invoke procedure how)
  digest : ∀ s, Leads R (E.digest s)
  apply : ∀ {body}, E.IsBody body → Leads R body → Leads R (E.apply body)
  flush : Leads R E.flush
  advance : ∀ milliseconds, Leads R (E.advance milliseconds)

/-! ## Composed changes -/

/-- A task for the next pass comes to the end of its queue, and a job may be deferred. -/
lemma Tree.queueAsync_eq (t : Tree κ σ) (s : ScopeId) (work : Work κ) :
    ∃ deferral, t.queueAsync s work = { t.enqueue .async s work with deferral } := by
  unfold Tree.queueAsync
  split
  · exact ⟨_, rfl⟩
  · exact ⟨_, rfl⟩

lemma Tree.armApply_eq (t : Tree κ σ) :
    ∃ deferral applyFlush, t.armApply = { t with deferral, applyFlush } := by
  unfold Tree.armApply
  split
  · exact ⟨_, _, rfl⟩
  · exact ⟨_, _, rfl⟩

lemma Tree.removeWatcher_eq (t : Tree κ σ) (w : WatcherId) :
    ∃ scopes watchers lastDirty, t.removeWatcher w = { t with scopes, watchers, lastDirty } ∧
      watchers.size = t.watchers.size := by
  unfold Tree.removeWatcher
  split
  · dsimp only
    split <;> exact ⟨_, _, _, rfl, Array.size_modify ..⟩
  · exact ⟨_, _, _, rfl, rfl⟩

lemma Tree.removeListener_eq (t : Tree κ σ) (l : ListenerId) :
    ∃ scopes listeners, t.removeListener l = { t with scopes, listeners } := by
  unfold Tree.removeListener
  split
  · exact ⟨_, _, rfl⟩
  · exact ⟨_, _, rfl⟩

/-- A scope, a watcher or a listener is registered or taken away, or all of them stay as they
are. -/
inductive Tree.Registers (t : Tree κ σ) : Tree κ σ → Prop
  | newScope (s : ScopeId) (isolated : Bool) (parent : ScopeId) :
    Registers t (t.newScope s isolated parent).2
  | addWatcher (s : ScopeId) (kind : WatchKind κ) (byValue : Bool) :
    Registers t (t.addWatcher s kind byValue).2
  | removeWatcher (w : WatcherId) : Registers t (t.removeWatcher w)
  | addListener (s : ScopeId) (event : String) (procedure : κ) :
    Registers t (t.addListener s event procedure).2
  | removeListener (l : ListenerId) : Registers t (t.removeListener l)
  | nothing {u : Tree κ σ} (hscopes : u.scopes = t.scopes) (hwatchers : u.watchers = t.watchers)
    (hlisteners : u.listeners = t.listeners) : Registers t u

lemma Tree.Act.registers {t u : Tree κ σ} (h : t.Act u) : t.Registers u := by
  cases h with
  | newScope s isolated parent => exact .newScope s isolated parent
  | addWatcher s kind byValue => exact .addWatcher s kind byValue
  | removeWatcher w => exact .removeWatcher w
  | addListener s event procedure => exact .addListener s event procedure
  | removeListener l => exact .removeListener l
  | queueAsync s work =>
    obtain ⟨deferral, h⟩ := queueAsync_eq t s work
    rw [h]
    exact .nothing rfl rfl rfl
  | armApply =>
    obtain ⟨deferral, applyFlush, h⟩ := armApply_eq t
    rw [h]
    exact .nothing rfl rfl rfl
  | _ => exact .nothing rfl rfl rfl

namespace Tree

lemma apply_queueAsync (t : Tree κ σ) (s : ScopeId) (work : Work κ) :
    (t.queueAsync s work).queues.apply = t.queues.apply := by
  obtain ⟨deferral, h⟩ := queueAsync_eq t s work
  rw [h]
  rfl

lemma apply_armApply (t : Tree κ σ) : t.armApply.queues.apply = t.queues.apply := by
  obtain ⟨deferral, applyFlush, h⟩ := armApply_eq t
  rw [h]

lemma apply_removeWatcher (t : Tree κ σ) (w : WatcherId) :
    (t.removeWatcher w).queues.apply = t.queues.apply := by
  obtain ⟨_, _, _, h, -⟩ := removeWatcher_eq t w
  rw [h]

lemma apply_removeListener (t : Tree κ σ) (l : ListenerId) :
    (t.removeListener l).queues.apply = t.queues.apply := by
  obtain ⟨_, _, h⟩ := removeListener_eq t l
  rw [h]

lemma calls_queueAsync (t : Tree κ σ) (s : ScopeId) (work : Work κ) :
    (t.queueAsync s work).calls = t.calls := by
  obtain ⟨deferral, h⟩ := queueAsync_eq t s work
  rw [h]
  rfl

lemma calls_armApply (t : Tree κ σ) : t.armApply.calls = t.calls := by
  obtain ⟨deferral, applyFlush, h⟩ := armApply_eq t
  rw [h]
  rfl

lemma calls_removeWatcher (t : Tree κ σ) (w : WatcherId) :
    (t.removeWatcher w).calls = t.calls := by
  obtain ⟨_, _, _, h, -⟩ := removeWatcher_eq t w
  rw [h]
  rfl

lemma calls_removeListener (t : Tree κ σ) (l : ListenerId) :
    (t.removeListener l).calls = t.calls := by
  obtain ⟨_, _, h⟩ := removeListener_eq t l
  rw [h]
  rfl

/-! A watcher that is registered takes nothing away, and it comes as it was asked for. -/

lemma isActive_addWatcher (s : ScopeId) (kind : WatchKind κ) (byValue : Bool) {t : Tree κ σ}
    {w : WatcherId} (hw : t.isActive w = true) :
    (t.addWatcher s kind byValue).2.isActive w = true := by
  obtain ⟨watcher, hwatcher, hactive⟩ := (Option.any_eq_true ..).1 hw
  have hlt : w < t.watchers.size := (Array.getElem?_eq_some_iff.1 hwatcher).1
  have hkept : (t.addWatcher s kind byValue).2.watcher? w = some watcher := by
    rw [← hwatcher]
    simp [addWatcher, watcher?, Array.getElem?_push, Nat.ne_of_lt hlt]
  rw [isActive, hkept]
  exact hactive

lemma isActive_addMembers (s : ScopeId) (g : GroupId) (watches : List κ) {t : Tree κ σ}
    {w : WatcherId} (index : ℕ) (hw : t.isActive w = true) :
    (t.addMembers s g index watches).2.isActive w = true := by
  induction watches generalizing t index with
  | nil => exact hw
  | cons watch rest ih => exact ih _ (isActive_addWatcher s _ false hw)

lemma isActive_formGroup (s : ScopeId) (watches : List κ) (listener : κ) {t : Tree κ σ}
    {w : WatcherId} (hw : t.isActive w = true) :
    (t.formGroup s watches listener).2.isActive w = true :=
  isActive_addMembers s _ watches 0 hw

lemma watcher?_addWatcher_cases {s : ScopeId} {kind : WatchKind κ} {byValue : Bool} {t : Tree κ σ}
    {w : WatcherId} {watcher : Watcher κ}
    (hw : (t.addWatcher s kind byValue).2.watcher? w = some watcher) :
    t.watcher? w = some watcher ∨
      w = t.watchers.size ∧ watcher = { scope := s, kind, byValue } := by
  simp only [addWatcher, watcher?, Array.getElem?_push] at hw
  split at hw
  · next hnew =>
    cases hw
    exact .inr ⟨hnew, rfl⟩
  · exact .inl hw

/-- The members of a group are registered in their order, one behind the other. -/
lemma watcher?_addMembers (t : Tree κ σ) (s : ScopeId) (g : GroupId) (index : ℕ) (watches : List κ)
    (w : WatcherId) : (t.addMembers s g index watches).2.watcher? w =
      if w < t.watchers.size then t.watcher? w
      else (watches[w - t.watchers.size]?).map fun watch =>
        { scope := s, kind := .member watch g (index + (w - t.watchers.size))
          byValue := false } := by
  induction watches generalizing t index with
  | nil =>
    split_ifs with hw
    · rfl
    · exact Array.getElem?_eq_none (Nat.le_of_not_lt hw)
  | cons watch rest ih =>
    have hsize : (t.addWatcher s (.member watch g index) false).2.watchers.size =
        t.watchers.size + 1 := Array.size_push ..
    have hrest := ih (t.addWatcher s (.member watch g index) false).2 (index + 1)
    rw [hsize] at hrest
    refine hrest.trans ?_
    rcases Nat.lt_trichotomy w t.watchers.size with hlt | rfl | hgt
    · rw [if_pos (Nat.lt_succ_of_lt hlt), if_pos hlt]
      simp [addWatcher, watcher?, Array.getElem?_push, Nat.ne_of_lt hlt]
    · rw [if_pos (Nat.lt_succ_self _), if_neg (Nat.lt_irrefl _), Nat.sub_self]
      simp [addWatcher, watcher?]
    · obtain ⟨k, rfl⟩ := Nat.exists_eq_add_of_lt hgt
      have hlast : t.watchers.size + k + 1 - (t.watchers.size + 1) = k := by omega
      have hbehind : t.watchers.size + k + 1 - t.watchers.size = k + 1 := by omega
      have hfirst : ¬ t.watchers.size + k + 1 < t.watchers.size + 1 := by omega
      have hold : ¬ t.watchers.size + k + 1 < t.watchers.size := by omega
      rw [if_neg hfirst, if_neg hold, hlast, hbehind, List.getElem?_cons_succ, Nat.add_assoc,
        Nat.add_comm 1]

@[simp] lemma groups_addMembers (t : Tree κ σ) (s : ScopeId) (g : GroupId) (index : ℕ)
    (watches : List κ) : (t.addMembers s g index watches).2.groups = t.groups := by
  induction watches generalizing t index with
  | nil => rfl
  | cons watch rest ih => exact ih _ _

/-! What preserves the watchers and the groups. -/

namespace Preserves

lemma of_eq {t u : Tree κ σ} (hwatchers : u.watchers = t.watchers) (hgroups : u.groups = t.groups) :
    t.Preserves u where
  isActive w h := by rwa [Tree.isActive, watcher?, hwatchers]
  group h := by rwa [hgroups]
  fresh {w watcher} hnone hw := by
    rw [watcher?, hwatchers] at hw
    cases hnone.symm.trans hw

lemma queueAsync (t : Tree κ σ) (s : ScopeId) (work : Work κ) :
    t.Preserves (t.queueAsync s work) := by
  obtain ⟨deferral, h⟩ := queueAsync_eq t s work
  rw [h]
  exact .of_eq rfl rfl

lemma armApply (t : Tree κ σ) : t.Preserves t.armApply := by
  obtain ⟨deferral, applyFlush, h⟩ := armApply_eq t
  rw [h]
  exact .of_eq rfl rfl

lemma queueApply (t : Tree κ σ) (s : ScopeId) (work : Work κ) :
    t.Preserves (t.queueApply s work) := by
  obtain ⟨deferral, applyFlush, h⟩ := armApply_eq (t.enqueue .apply s work)
  rw [Tree.queueApply, h]
  exact .of_eq rfl rfl

lemma removeListener (t : Tree κ σ) (l : ListenerId) : t.Preserves (t.removeListener l) := by
  obtain ⟨_, _, h⟩ := removeListener_eq t l
  rw [h]
  exact .of_eq rfl rfl

lemma addWatcher (t : Tree κ σ) (s : ScopeId) {kind : WatchKind κ} (byValue : Bool)
    (hfresh : kind.forget = kind) : t.Preserves (t.addWatcher s kind byValue).2 where
  isActive _ := isActive_addWatcher s kind byValue
  group h := h
  fresh {w watcher} hnone hw := by
    rcases watcher?_addWatcher_cases hw with hw | ⟨-, rfl⟩
    · cases hnone.symm.trans hw
    · exact hfresh

lemma formGroup (t : Tree κ σ) (s : ScopeId) (watches : List κ) (listener : κ) :
    t.Preserves (t.formGroup s watches listener).2 where
  isActive _ := isActive_formGroup s watches listener
  group {g group} h := by
    have hne : g ≠ t.groups.size := Nat.ne_of_lt (Array.getElem?_eq_some_iff.1 h).1
    rw [Tree.formGroup, groups_addMembers]
    simpa [addGroup, Array.getElem?_push, hne] using h
  fresh {w watcher} hnone hw := by
    rw [Tree.formGroup, watcher?_addMembers] at hw
    split at hw
    · cases hnone.symm.trans hw
    · obtain ⟨watch, -, rfl⟩ := Option.map_eq_some_iff.1 hw
      rfl

end Preserves

end Tree

/-- An edit is made of elementary changes that call no procedure.  Those that queue a task for the
apply defer the apply, too. -/
lemma Tree.Edit.related {R : Tree κ σ → Tree κ σ → Prop} [IsPreorder (Tree κ σ) R]
    (hact : ∀ {t u : Tree κ σ}, t.Act u → u.calls = t.calls → u.queues.apply = t.queues.apply →
      R t u) (hqueue : ∀ t s work, R t (t.queueApply s work)) {t u : Tree κ σ} (h : t.Edit u) :
    R t u := by
  have hmembers : ∀ (watches : List κ) (t : Tree κ σ) (s : ScopeId) (g : GroupId) (index : ℕ),
      R t (t.addMembers s g index watches).2 := by
    intro watches
    induction watches with
    | nil => exact fun t _ _ _ => refl_of R t
    | cons watch rest ih =>
      exact fun t s g index => trans_of R (hact (.addWatcher t s _ false) rfl rfl) (ih _ _ _ _)
  cases h with
  | store store => exact hact (.store t store) rfl rfl
  | compiler compiler => exact hact (.compiler t compiler) rfl rfl
  | events events => exact hact (.events t events) rfl rfl
  | reported e => exact hact (.reported t e) rfl rfl
  | modifyGroup g f => exact hact (.groups t _) rfl rfl
  | formGroup s watches listener =>
    have hgroup : R t (t.addGroup listener watches.length).2 :=
      trans_of R (hact (.store t _) (by rfl) (by rfl)) (hact (.groups _ _) (by rfl) (by rfl))
    exact trans_of R hgroup (hmembers watches _ s _ 0)
  | addAnnouncement listener => exact hact (.announcements t _) rfl rfl
  | cancelAnnouncement a => exact hact (.announcements t _) rfl rfl
  | @queueAsync s work =>
    exact hact (.queueAsync t s work) (t.calls_queueAsync s work) (t.apply_queueAsync s work)
  | @queueApply s work => exact hqueue t s work
  | @postpone s work => exact hact (.enqueue t Queue.noConfusion s work) rfl rfl
  | armApply => exact hact (.armApply t) t.calls_armApply t.apply_armApply
  | newScope s isolated parent => exact hact (.newScope t s isolated parent) rfl rfl
  | addWatcher s byValue => exact hact (.addWatcher t s _ byValue) rfl rfl
  | removeWatcher w =>
    exact hact (.removeWatcher t w) (t.calls_removeWatcher w) (t.apply_removeWatcher w)
  | addListener s event procedure => exact hact (.addListener t s event procedure) rfl rfl
  | removeListener l =>
    exact hact (.removeListener t l) (t.calls_removeListener l) (t.apply_removeListener l)

lemma Allows.permits {R : Tree κ σ → Tree κ σ → Prop} [IsPreorder (Tree κ σ) R] (hR : Allows R) :
    Permits R where
  edit h := h.related (fun hact _ happly => hR.act hact happly) hR.queueApply
  beginDestroy := hR.beginDestroy
  tearDown := hR.tearDown

instance {R : Tree κ σ → Tree κ σ → Prop} [IsPreorder (Tree κ σ) R] :
    Coe (Allows R) (Permits R) := ⟨Allows.permits⟩

lemma Permits.grants {R : Tree κ σ → Tree κ σ → Prop} (hR : Permits R) : Grants R where
  edit h _ := hR.edit h
  beginDestroy := hR.beginDestroy
  tearDown := hR.tearDown

instance {R : Tree κ σ → Tree κ σ → Prop} : Coe (Permits R) (Grants R) := ⟨Permits.grants⟩

lemma Allows.concedes {R : Tree κ σ → Tree κ σ → Prop} [IsPreorder (Tree κ σ) R] (hR : Allows R) :
    Concedes R :=
  { hR.permits.grants with called := fun t procedure how => hR.act (.called t procedure how) rfl }

instance {R : Tree κ σ → Tree κ σ → Prop} [IsPreorder (Tree κ σ) R] :
    Coe (Allows R) (Concedes R) := ⟨Allows.concedes⟩

namespace Grants

variable {R : Tree κ σ → Tree κ σ → Prop}

lemma store (hR : Grants R) (t : Tree κ σ) (store : Store σ) : R t { t with store } :=
  hR.edit (.store t store) (.of_eq rfl rfl)

lemma compiler (hR : Grants R) (t : Tree κ σ) (compiler : Compiler) : R t { t with compiler } :=
  hR.edit (.compiler t compiler) (.of_eq rfl rfl)

lemma events (hR : Grants R) (t : Tree κ σ) (events : Array Event) : R t { t with events } :=
  hR.edit (.events t events) (.of_eq rfl rfl)

lemma reported (hR : Grants R) (t : Tree κ σ) (e : Error) : R t (t.note (.reported e)) :=
  hR.edit (.reported t e) (.of_eq rfl rfl)

lemma formGroup (hR : Grants R) (t : Tree κ σ) (s : ScopeId) (watches : List κ) (listener : κ) :
    R t (t.formGroup s watches listener).2 :=
  hR.edit (.formGroup t s watches listener) (.formGroup t s watches listener)

lemma addAnnouncement (hR : Grants R) (t : Tree κ σ) (listener : κ) :
    R t (t.addAnnouncement listener).2 :=
  hR.edit (.addAnnouncement t listener) (.of_eq rfl rfl)

lemma cancelAnnouncement (hR : Grants R) (t : Tree κ σ) (a : ℕ) : R t (t.cancelAnnouncement a) :=
  hR.edit (.cancelAnnouncement t a) (.of_eq rfl rfl)

lemma queueAsync (hR : Grants R) (t : Tree κ σ) (s : ScopeId) {work : Work κ}
    (hwork : work.group? = none) : R t (t.queueAsync s work) :=
  hR.edit (.queueAsync t s hwork) (.queueAsync t s work)

lemma queueApply (hR : Grants R) (t : Tree κ σ) (s : ScopeId) {work : Work κ}
    (hwork : work.group? = none) : R t (t.queueApply s work) :=
  hR.edit (.queueApply t s hwork) (.queueApply t s work)

lemma postpone (hR : Grants R) (t : Tree κ σ) (s : ScopeId) {work : Work κ}
    (hwork : work.group? = none) : R t (t.enqueue .postDigest s work) :=
  hR.edit (.postpone t s hwork) (.of_eq rfl rfl)

lemma armApply (hR : Grants R) (t : Tree κ σ) : R t t.armApply :=
  hR.edit (.armApply t) (.armApply t)

lemma newScope (hR : Grants R) (t : Tree κ σ) (s : ScopeId) (isolated : Bool) (parent : ScopeId) :
    R t (t.newScope s isolated parent).2 :=
  hR.edit (.newScope t s isolated parent) (.of_eq rfl rfl)

lemma addWatcher (hR : Grants R) (t : Tree κ σ) (s : ScopeId) {kind : WatchKind κ} (byValue : Bool)
    (hkind : kind.group? = none) (hfresh : kind.forget = kind) :
    R t (t.addWatcher s kind byValue).2 :=
  hR.edit (.addWatcher t s byValue hkind) (.addWatcher t s byValue hfresh)

lemma addListener (hR : Grants R) (t : Tree κ σ) (s : ScopeId) (event : String) (procedure : κ) :
    R t (t.addListener s event procedure).2 :=
  hR.edit (.addListener t s event procedure) (.of_eq rfl rfl)

lemma removeListener (hR : Grants R) (t : Tree κ σ) (l : ListenerId) : R t (t.removeListener l) :=
  hR.edit (.removeListener t l) (.removeListener t l)

end Grants

namespace Admits

variable {R : Tree κ σ → Tree κ σ → Prop} [IsPreorder (Tree κ σ) R]

/-- For the relation to admit a destruction it is enough that it holds across both of its
changes. -/
lemma of_changes (hact : ∀ {t u}, t.Act u → R t u) (hbegin : ∀ t s, R t (t.beginDestroy s))
    (htear : ∀ t s, R t (t.tearDown s)) : Admits R where
  act := hact
  beginDestroy _ := hbegin _ _
  tearDown _ hu := trans_of R (trans_of R (hbegin _ _) hu) (htear _ _)

lemma queueApply (hR : Admits R) (t : Tree κ σ) (s : ScopeId) (work : Work κ) :
    R t (t.queueApply s work) :=
  trans_of R (hR.act (.enqueue t Queue.noConfusion s work)) (hR.act (.armApply _))

/-- A relation that holds across every elementary change holds across the steps that are made of
them. -/
lemma allows (hR : Admits R) : Allows R where
  act h _ := hR.act h
  queueApply := hR.queueApply
  beginDestroy := hR.beginDestroy
  tearDown := hR.tearDown

instance : Coe (Admits R) (Allows R) := ⟨allows⟩

lemma grants (hR : Admits R) : Grants R := hR.allows.permits.grants

end Admits

/-- To take a registration back respects the relation, if it holds across the removal of each of its
watchers. -/
lemma Grants.deregister {R : Tree κ σ → Tree κ σ → Prop} [IsPreorder (Tree κ σ) R] (hR : Grants R)
    (r : Registration) (hremove : ∀ w ∈ r.watchers, ∀ t : Tree κ σ, R t (t.removeWatcher w))
    (t : Tree κ σ) : R t (t.deregister r) := by
  cases r with
  | watcher w => exact hremove w (.head _) t
  | group ws =>
    change R t (t.removeWatchers ws)
    induction ws generalizing t with
    | nil => exact refl_of R t
    | cons w ws ih =>
      exact trans_of R (hremove w (.head _) t) (ih _ fun v hv => hremove v (.tail _ hv))
  | announcement a => exact hR.cancelAnnouncement t a
  | listener l => exact hR.removeListener t l

namespace Permits

variable {R : Tree κ σ → Tree κ σ → Prop} [IsPreorder (Tree κ σ) R]

lemma deregister (hR : Permits R) (t : Tree κ σ) (r : Registration) : R t (t.deregister r) :=
  hR.grants.deregister r (fun w _ t => hR.edit (.removeWatcher t w)) t

lemma settle (hR : Permits R) (t : Tree κ σ) (w : WatcherId) : R t (t.settle w) := by
  unfold Tree.settle
  split
  · split
    · exact hR.edit (.removeWatcher t w)
    · exact refl_of R t
  · exact refl_of R t

end Permits

lemma Tree.takeFirstJob?_cases {t u : Tree κ σ} {job : Job}
    (h : t.takeFirstJob? = some (job, u)) : ∃ deferral,
      t.deferral.takeFirst? = some (job, deferral) ∧
        u = { t with deferral }.note (.ran job.kind) := by
  obtain ⟨⟨job', deferral⟩, htake, h⟩ := Option.map_eq_some_iff.1 h
  cases h
  exact ⟨deferral, htake, rfl⟩

lemma Tree.takeDueJob?_cases {t u : Tree κ σ} {job : Job} {deadline : ℕ}
    (h : t.takeDueJob? deadline = some (job, u)) : ∃ deferral,
      t.deferral.takeDue? deadline = some (job, deferral) ∧
        u = { t with deferral }.note (.ran job.kind) := by
  obtain ⟨⟨job', deferral⟩, htake, h⟩ := Option.map_eq_some_iff.1 h
  cases h
  exact ⟨deferral, htake, rfl⟩

/-- The running of deferred jobs notes a job that it takes, and changes what is deferred at most. -/
lemma Tree.Tick.eq_or_eq {t u : Tree κ σ} (h : t.Tick u) :
    (∃ deferral job, u = { t with deferral }.note (.ran job)) ∨
      ∃ deferral applyFlush, u = { t with deferral, applyFlush } := by
  cases h with
  | takeFirst h =>
    obtain ⟨deferral, -, rfl⟩ := takeFirstJob?_cases h
    exact .inl ⟨deferral, _, rfl⟩
  | takeDue h =>
    obtain ⟨deferral, -, rfl⟩ := takeDueJob?_cases h
    exact .inl ⟨deferral, _, rfl⟩
  | disarm => exact .inr ⟨_, _, rfl⟩
  | clock => exact .inr ⟨_, _, rfl⟩

/-! ## Walks -/

namespace Routine

variable {ι : Type} {R : Tree κ σ → Tree κ σ → Prop} [IsPreorder (Tree κ σ) R]

lemma leads_andThen {first second : Routine κ σ Findings} (h₁ : Leads R first)
    (h₂ : Leads R second) : Leads R (first.andThen second) := by
  refine h₁.bind fun a => ?_
  split
  · exact .pure a
  · exact h₂.bind fun b => .pure _

lemma leads_inOrder {visit : ι → Routine κ σ Findings} (h : ∀ x, Leads R (visit x))
    (l : List ι) : Leads R (inOrder visit l) := by
  induction l with
  | nil => exact .pure _
  | cons x rest ih => exact leads_andThen (h x) ih

lemma leads_walk {visit : ScopeId → Routine κ σ Findings} (h : ∀ s, Leads R (visit s))
    (depth : ℕ) (s : ScopeId) : Leads R (walk visit depth s) := by
  induction depth generalizing s with
  | zero => exact .endless
  | succ depth ih =>
    exact leads_andThen (h s) ((Leads.read _).bind fun children => leads_inOrder ih children)

end Routine

namespace Engine

variable {E : Engine κ σ} {R : Tree κ σ → Tree κ σ → Prop} [IsPreorder (Tree κ σ) R]

/-! ## Calls and expressions -/

omit [IsPreorder (Tree κ σ) R] in
lemma leads_onStore (hR : Grants R) (m : Compute (Store σ) α) :
    Leads R (Routine.onStore (κ := κ) m) :=
  .within m fun t store => hR.store t store

lemma leads_parse (hR : Grants R) (source : String) :
    Leads R (Routine.parse (κ := κ) (σ := σ) source) :=
  (Leads.alter fun t => hR.compiler t _).bind fun e => .ofExcept e

lemma leads_reportError (hR : Grants R) (e : Error) : Leads R (E.reportError e) :=
  .change fun t => trans_of R (hR.store t _) (hR.reported _ e)

lemma leads_contained (hR : Grants R) {m : Routine κ σ Unit} (hm : Leads R m) :
    Leads R (E.contained m) := by
  refine hm.attempt.bind fun r => ?_
  cases r with
  | ok => exact .pure ()
  | error e => exact leads_reportError hR e

omit [IsPreorder (Tree κ σ) R] in
/-- What is contained ends as the routine does, and without its error. -/
lemma runOn_contained_cases {m : Routine κ σ Unit} {t u : Tree κ σ} {r : Except Error Unit}
    (h : Compute.runOn (E.contained m) t = some (r, u)) :
    r = .ok () ∧ ∃ r₁ v, Compute.runOn m t = some (r₁, v) ∧
      (r₁ = .ok () ∧ u = v ∨
        ∃ e, r₁ = .error e ∧ Compute.runOn (E.reportError e) v = some (.ok (), u)) := by
  obtain ⟨r₁, v, hrun, hrest⟩ := Compute.runOn_attempt_bind_cases h
  cases r₁ with
  | ok =>
    cases hrest
    exact ⟨rfl, _, _, hrun, .inl ⟨rfl, rfl⟩⟩
  | error e =>
    cases hrest
    exact ⟨rfl, _, _, hrun, .inr ⟨e, rfl, rfl⟩⟩

lemma leads_evaluate (hR : Grants R) (s : ScopeId) (e : Expression) (locals : Option Value) :
    Leads R (E.evaluate s e locals) :=
  (Leads.read _).bind fun _ => leads_onStore hR _

lemma leads_evaluateSource (hR : Grants R) (s : ScopeId) (source : String)
    (locals : Option Value) : Leads R (E.evaluateSource s source locals) :=
  (leads_parse hR source).bind fun e => leads_evaluate hR s e locals

lemma leads_hearAll {e : EventId} {args : List Value} (hhear : ∀ l, Leads R (E.hear e args l))
    (ls : List ListenerId) : Leads R (E.hearAll e args ls) := by
  induction ls with
  | nil => exact .pure ()
  | cons l ls ih => exact (hhear l).bind fun _ => ih

/-- The delivery of an event respects what its listeners do when they hear it. -/
lemma leads_deliver_of_hear (hR : Grants R) {e : EventId} {args : List Value}
    (hhear : ∀ l, Leads R (E.hear e args l)) (name : String) (s : ScopeId) :
    Leads R (E.deliver e name args s) :=
  (Leads.change fun t => hR.events t _).bind fun _ =>
    (Leads.read _).bind fun ls => leads_hearAll hhear ls

section Calls

variable (hR : Concedes R) (hcall : ∀ procedure how, Leads R (E.invoke procedure how))

include hR hcall

lemma leads_call (procedure : κ) (how : Invocation) : Leads R (E.call procedure how) :=
  (Leads.change fun t => hR.called t procedure how).bind fun _ => hcall procedure how

lemma leads_tell (listener : κ) (s : ScopeId) (change : Change) :
    Leads R (E.tell listener s change) :=
  (leads_call hR hcall _ _).discard

/-! ## Tasks -/

lemma leads_callGroup (s : ScopeId) {g : GroupId}
    (hgroup : ∀ (t : Tree κ σ) f, R t (t.modifyGroup g f)) : Leads R (E.callGroup s g) := by
  refine (Leads.read _).bind fun group => ?_
  cases group with
  | none => exact .pure ()
  | some group =>
    refine (Leads.alter fun t => hgroup t _).bind fun change => ?_
    refine (leads_tell hR hcall _ _ _).attempt.bind fun result => ?_
    exact (Leads.change fun t => hgroup t _).bind fun _ => .ofExcept result

lemma leads_announce (s : ScopeId) (a : ℕ) : Leads R (E.announce s a) := by
  refine (Leads.read _).bind fun announcement => ?_
  cases announcement with
  | none => exact .pure ()
  | some announcement =>
    dsimp only
    split
    · exact .pure ()
    · exact (leads_onStore hR.toGrants _).bind fun _ => leads_tell hR hcall _ _ _

/-- A task respects the relation, and so does the end of a one-time watch or what its group keeps
for itself if it comes to that. -/
lemma leads_perform_of_settle (s : ScopeId) {work : Work κ}
    (hsettle : ∀ w, work = .settle w → ∀ t : Tree κ σ, R t (t.settle w))
    (hgroup : ∀ g, work = .group g → ∀ (t : Tree κ σ) f, R t (t.modifyGroup g f)) :
    Leads R (E.perform s work) := by
  cases work with
  | procedure body => exact (leads_call hR hcall _ _).discard
  | group g => exact leads_callGroup hR hcall s (hgroup g rfl)
  | announcement a => exact leads_announce hR hcall s a
  | settle w => exact .change (hsettle w rfl)
  | rearm => exact .change hR.armApply

/-! ## Events -/

lemma leads_hear (e : EventId) (args : List Value) (l : ListenerId) :
    Leads R (E.hear e args l) := by
  refine (Leads.read _).bind fun listener => ?_
  split
  · exact leads_contained hR.toGrants (leads_call hR hcall _ _).discard
  · exact .pure ()

lemma leads_deliver (e : EventId) (name : String) (args : List Value) (s : ScopeId) :
    Leads R (E.deliver e name args s) :=
  leads_deliver_of_hear hR.toGrants (leads_hear hR hcall e args) name s

end Calls

lemma leads_perform (hR : Allows R) (hcall : ∀ procedure how, Leads R (E.invoke procedure how))
    (s : ScopeId) (work : Work κ) : Leads R (E.perform s work) :=
  leads_perform_of_settle hR hcall s (fun w _ t => hR.permits.settle t w)
    fun g _ t f => hR.permits.edit (.modifyGroup t g f)

section Events

variable (hdeliver : ∀ e name args s, Leads R (E.deliver e name args s))

lemma leads_send (hR : Grants R) (target : ScopeId) (name : String) (stoppable : Bool)
    {travel : EventId → Routine κ σ Unit} (htravel : ∀ e, Leads R (travel e)) :
    Leads R (send target name stoppable travel) :=
  (Leads.alter fun t => hR.events t _).bind fun e => (htravel e).bind fun _ =>
    (Leads.change fun t => hR.events t _).bind fun _ => .pure e

include hdeliver

lemma leads_climb (e : EventId) (name : String) (args : List Value) (s : ScopeId) :
    Leads R (E.climb e name args s) := by
  induction s using Nat.strongRecOn with
  | ind s ih =>
    rw [climb]
    refine (hdeliver e name args s).bind fun _ => (Leads.read _).bind fun stopped => ?_
    cases stopped with
    | true => exact .pure ()
    | false =>
      refine (Leads.read _).bind fun parent => ?_
      cases parent with
      | none => exact .pure ()
      | some p =>
        by_cases hp : p < s
        · simpa [hp] using ih p hp
        · simpa [hp] using Leads.pure ()

variable (hR : Grants R)

include hR

lemma leads_emit (s : ScopeId) (name : String) (args : List Value) :
    Leads R (E.emit s name args) :=
  leads_send hR s name true fun e => leads_climb hdeliver e name args s

lemma leads_broadcast (s : ScopeId) (name : String) (args : List Value) :
    Leads R (E.broadcast s name args) := by
  refine leads_send hR s name false fun e => Leads.discard (Routine.leads_walk (fun q => ?_) _ _)
  exact (hdeliver e name args q).bind fun _ => .pure _

/-- The broadcast that announces a destruction runs between its two changes. -/
lemma leads_destroy (s : ScopeId) : Leads R (E.destroy s) := by
  intro t r u h
  rw [destroy, Compute.runOn_read_bind] at h
  cases hs : (t.scope s).isDestroyed with
  | true =>
    rw [hs] at h
    cases h
    exact refl_of R t
  | false =>
    rw [hs, if_neg Bool.false_ne_true, Compute.runOn_change_bind] at h
    have hbroadcast := (leads_broadcast hdeliver hR s destroyEvent []).discard
    rcases Compute.runOn_bind_cases h with ⟨e, h₁, -⟩ | ⟨_, v, h₁, h₂⟩
    · exact trans_of R (hR.beginDestroy hs) (hbroadcast h₁)
    · cases h₂
      exact hR.tearDown hs (hbroadcast h₁)

end Events

/-! ## Deferred jobs -/

/-- Deferred jobs respect the relation if each does that is taken and then run. -/
lemma leads_runJobs {next : Tree κ σ → Option (Job × Tree κ σ)}
    (hjob : ∀ {t job u r v}, next t = some (job, u) →
      Compute.runOn (E.runJob job.kind) u = some (r, v) → R t v) (limit : ℕ) :
    Leads R (E.runJobs next limit) := by
  induction limit with
  | zero => exact .endless
  | succ limit ih =>
    intro t r u h
    cases hnext : next t with
    | none =>
      rw [runJobs, Compute.runOn_bind_of_ok (Compute.runOn_alter?_of_none hnext)] at h
      cases h
      exact refl_of R t
    | some x =>
      rw [runJobs, Compute.runOn_bind_of_ok (Compute.runOn_alter?_of_some hnext)] at h
      rcases Compute.runOn_bind_cases h with ⟨e, hrun, -⟩ | ⟨_, v, hrun, hrest⟩
      · exact hjob hnext hrun
      · exact trans_of R (hjob hnext hrun) (ih.bind (fun ran => .pure _) hrest)

/-- A deferred apply respects the relation if the apply does. -/
lemma leads_runApply (hR : Grants R) (hdisarm : ∀ t : Tree κ σ, R t { t with applyFlush := none })
    (happly : Leads R E.applyQueued) : Leads R E.runApply := by
  refine (Leads.alter hdisarm).bind fun pending => ?_
  cases pending with
  | false => exact .pure ()
  | true =>
    refine happly.attempt.bind fun result => ?_
    split
    · exact .pure ()
    · exact .change fun t => hR.postpone t _ rfl
    · exact leads_reportError hR _

section Jobs

variable (hR : Grants R) (htick : ∀ {t u}, t.Tick u → R t u) (hdigest : Leads R (E.digest rootId))
  (happly : Leads R E.applyQueued)

include hR hdigest

lemma leads_runDigest : Leads R E.runDigest := by
  refine (Leads.read _).bind fun idle => ?_
  cases idle with
  | true => exact .pure ()
  | false => exact leads_contained hR hdigest

include htick happly

lemma leads_runJob (job : JobKind) : Leads R (E.runJob job) := by
  cases job with
  | digest => exact leads_runDigest hR hdigest
  | apply => exact leads_runApply hR (fun t => htick (.disarm t)) happly

lemma leads_flush : Leads R E.flush :=
  leads_runJobs (fun hnext hrun => trans_of R (htick (.takeFirst hnext))
    (leads_runJob hR htick hdigest happly _ hrun)) _

lemma leads_advance (milliseconds : ℕ) : Leads R (E.advance milliseconds) := by
  refine (Leads.read _).bind fun _ => Leads.bind (Leads.discard ?_) fun _ =>
    .change fun t => htick (.clock t _)
  exact leads_runJobs (fun hnext hrun => trans_of R (htick (.takeDue hnext))
    (leads_runJob hR htick hdigest happly _ hrun)) _

end Jobs

/-! ## Requests -/

section Requests

/-- An engine whose procedures respect the relation heeds it. -/
lemma Tame.heeds (hR : Allows R) (hE : E.Tame R) : E.Heeds R where
  deliver := leads_deliver hR hE.invoke
  body _ _ := leads_call hR hE.invoke _ _
  digest := hE.digest
  apply := hE.apply
  flush := hE.flush
  advance := hE.advance

section Granted

variable (hR : Grants R) (hE : E.Heeds R)

include hR hE

omit hE in
lemma leads_watchExpression (s : ScopeId) (source : String) (listener : κ) (byValue : Bool) :
    Leads R (watchExpression (σ := σ) s source listener byValue) :=
  (leads_parse hR source).bind fun e => .map _
    (.alter fun t => hR.addWatcher t s _ (WatchKind.group?_ofExpression e listener byValue)
      (WatchKind.forget_ofExpression e listener byValue))

omit hR hE [IsPreorder (Tree κ σ) R] in
/-- A group with members is made in one step. -/
lemma watchGroup_cons (s : ScopeId) (watch : κ) (rest : List κ) (listener : κ) :
    watchGroup (σ := σ) s (watch :: rest) listener =
      .group <$> Compute.alter (·.formGroup s (watch :: rest) listener) := rfl

omit hE in
lemma leads_watchGroup (s : ScopeId) (watches : List κ) (listener : κ) :
    Leads R (watchGroup (σ := σ) s watches listener) := by
  cases watches with
  | nil =>
    refine (Leads.alter fun t => hR.addAnnouncement t listener).bind fun a => ?_
    exact (Leads.change fun t => hR.queueAsync t s rfl).bind fun _ => .pure _
  | cons watch rest =>
    rw [watchGroup_cons]
    exact .map _ (.alter fun t => hR.formGroup t s (watch :: rest) listener)

/-- Every request respects a relation that is heeded, if to take back what it takes back does. -/
lemma leads_answer_of_deregister {β : Type} (q : Request κ σ β)
    (hderegister : ∀ r, q.takenBack? = some r → ∀ t : Tree κ σ, R t (t.deregister r)) :
    Leads R (E.answer q) := by
  cases q with
  | look => exact .read id
  | compute m => exact leads_onStore hR m
  | parse source => exact leads_parse hR source
  | registerFilter name filter => exact .change fun t => hR.compiler t _
  | clearCache => exact .change fun t => hR.compiler t _
  | evaluate s source locals => exact leads_evaluateSource hR s source locals
  | newChild s isolated parent => exact .alter fun t => hR.newScope t s isolated parent
  | destroy s => exact leads_destroy hE.deliver hR s
  | watch s watch listener byValue =>
    exact .map _ (.alter fun t => hR.addWatcher t s byValue rfl rfl)
  | watchExpression s source listener byValue =>
    exact leads_watchExpression hR s source listener byValue
  | watchGroup s watches listener => exact leads_watchGroup hR s watches listener
  | watchCollection s watch listener =>
    exact .map _ (.alter fun t => hR.addWatcher t s false rfl rfl)
  | listen s event procedure => exact .map _ (.alter fun t => hR.addListener t s event procedure)
  | deregister r => exact .change (hderegister r rfl)
  | evalAsync s procedure => exact .change fun t => hR.queueAsync t s rfl
  | applyAsync s procedure => exact .change fun t => hR.queueApply t s rfl
  | postDigest s procedure => exact .change fun t => hR.postpone t s rfl
  | digest s => exact hE.digest s
  | apply s procedure => exact hE.apply (.procedure procedure s) (hE.body procedure s)
  | applySource s source =>
    exact hE.apply (.source s source) (leads_evaluateSource hR s source none)
  | emit s name args => exact (leads_emit hE.deliver hR s name args)
  | broadcast s name args => exact leads_broadcast hE.deliver hR s name args
  | stop e => exact .change fun t => hR.events t _
  | prevent e => exact .change fun t => hR.events t _
  | report e => exact leads_reportError hR e
  | flush => exact hE.flush
  | advance milliseconds => exact hE.advance milliseconds

end Granted

/-- Every program respects a relation that is heeded, if to take a watcher away does. -/
theorem leads_program_of_remove (hR : Grants R) (hE : E.Heeds R)
    (hremove : ∀ (t : Tree κ σ) w, R t (t.removeWatcher w)) (p : Program κ σ α) :
    Leads R (E.execute p) := by
  induction p with
  | done result => exact .ofExcept result
  | ask q next ih =>
    have hanswer := leads_answer_of_deregister hR hE q fun r _ t =>
      hR.deregister r (fun w _ t => hremove t w) t
    exact hanswer.attempt.bind fun answer => ih answer

/-- Every program respects a relation that is heeded. -/
theorem leads_program (hR : Permits R) (hE : E.Heeds R) (p : Program κ σ α) :
    Leads R (E.execute p) :=
  leads_program_of_remove hR hE (fun t w => hR.edit (.removeWatcher t w)) p

/-- Every program respects a relation that the procedures of the host respect. -/
theorem leads_execute (hR : Allows R) (hE : E.Tame R) (p : Program κ σ α) :
    Leads R (E.execute p) :=
  leads_program hR.permits (hE.heeds hR) p

end Requests

end Engine

/-- If the engines of a host heed the relation whenever their procedures respect it, then these do
respect it, if to take a watcher away does: they are programs that the engines run themselves, with
a lower limit. -/
theorem Host.leads_invoke_of_remove {R : Tree κ σ → Tree κ σ → Prop} [IsPreorder (Tree κ σ) R]
    (H : Host κ σ) (hR : Grants R) (hremove : ∀ (t : Tree κ σ) w, R t (t.removeWatcher w))
    (hE : ∀ limit, (∀ procedure how, Leads R ((H.engine limit).invoke procedure how)) →
      (H.engine limit).Heeds R)
    (limit : ℕ) (procedure : κ) (how : Invocation) : Leads R (H.invoke limit procedure how) := by
  induction limit generalizing procedure how with
  | zero => exact .endless
  | succ limit ih =>
    exact Engine.leads_program_of_remove hR (hE limit ih) hremove (H.procedure procedure how)

/-- If the engines of a host heed the relation whenever their procedures respect it, then these do
respect it. -/
theorem Host.leads_invoke {R : Tree κ σ → Tree κ σ → Prop} [IsPreorder (Tree κ σ) R] (H : Host κ σ)
    (hR : Permits R)
    (hE : ∀ limit, (∀ procedure how, Leads R ((H.engine limit).invoke procedure how)) →
      (H.engine limit).Heeds R)
    (limit : ℕ) (procedure : κ) (how : Invocation) : Leads R (H.invoke limit procedure how) :=
  H.leads_invoke_of_remove hR (fun t w => hR.edit (.removeWatcher t w)) hE limit procedure how

/-- If the engines of a host respect the relation whenever their procedures do, then they do respect
it: their procedures are programs that they run themselves, with a lower limit. -/
theorem Host.tame {R : Tree κ σ → Tree κ σ → Prop} [IsPreorder (Tree κ σ) R] (H : Host κ σ)
    (hR : Allows R)
    (hE : ∀ limit, (∀ procedure how, Leads R ((H.engine limit).invoke procedure how)) →
      (H.engine limit).Tame R)
    (limit : ℕ) : (H.engine limit).Tame R :=
  hE limit (H.leads_invoke hR.permits (fun limit hcall => (hE limit hcall).heeds hR) limit)

end DataBinding
