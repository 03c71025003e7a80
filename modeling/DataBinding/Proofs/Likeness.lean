import DataBinding.Host
import DataBinding.Proofs.Chains
import Mathlib.Tactic.Simps.Basic

/-!
# Runs in trees that are alike

Two things that a tree carries with it are hidden from the engine: the journal, and the state that
the host keeps for itself.  No elementary change of a tree looks at them (`Tree.Blind`).  So an
engine does the same in two trees that differ in nothing else, as far as the procedures of the host
do the same there.

Which trees are alike for these procedures a `Likeness` says; with `Likeness.journal` it is those
that differ in their journals only (`Tree.Alike`).  Akin engines (`Engine.Akin`) do the same in
trees that are alike, wherever the first one comes to an end; the second one may have the higher
limit.

The engine does not heed what becomes of a listener or a task.  An error goes to the host and to
nobody else.  So a likeness may be lax, and then the listeners and tasks of akin engines may come to
different results, if trees are still alike after the host was told of an error in one of them.

This module deals with calls, tasks and events.
-/

namespace DataBinding

open Compute (Follows Shadows)

variable {κ σ α β : Type}

/-! ## What is hidden from the engine -/

/-- Steps that are added to both journals keep the relation. -/
def Lasting (P : List (Step κ) → List (Step κ) → Prop) : Prop :=
  ∀ step {l l'}, P l l' → P (step :: l) (step :: l')

lemma lasting_eq : Lasting (κ := κ) Eq := fun _ _ _ h => congrArg _ h

lemma Lasting.append {P : List (Step κ) → List (Step κ) → Prop} (hP : Lasting P)
    {l l' : List (Step κ)} (h : P l l') (steps : List (Step κ)) : P (steps ++ l) (steps ++ l') := by
  induction steps with
  | nil => exact h
  | cons step steps ih => exact hP step ih

namespace Tree

variable {P : List (Step κ) → List (Step κ) → Prop} {t t' : Tree κ σ} {w : WatcherId}

/-- The tree with another journal. -/
@[simps] def withJournal (t : Tree κ σ) (journal : List (Step κ)) : Tree κ σ := { t with journal }

/-- The second tree differs from the first at most in its journal, and there as `P` says. -/
def Alike (P : List (Step κ) → List (Step κ) → Prop) (t t' : Tree κ σ) : Prop :=
  ∃ journal, P t.journal journal ∧ t' = t.withJournal journal

/-- What the engine does not look at. -/
structure Hidden (κ σ : Type) where
  journal : List (Step κ)
  host : σ

/-- What is hidden, after these steps. -/
def Hidden.after (x : Hidden κ σ) (steps : List (Step κ)) : Hidden κ σ :=
  { x with journal := steps ++ x.journal }

/-- What is hidden in the tree. -/
def hidden (t : Tree κ σ) : Hidden κ σ := ⟨t.journal, t.store.host⟩

/-- The tree with something else hidden in it. -/
@[simps] def withHidden (t : Tree κ σ) (x : Hidden κ σ) : Tree κ σ :=
  { t with store := { t.store with host := x.host }, journal := x.journal }

@[simp] lemma scope_withHidden (t : Tree κ σ) (x : Hidden κ σ) (s : ScopeId) :
    (t.withHidden x).scope s = t.scope s := rfl

@[simp] lemma watcher?_withHidden (t : Tree κ σ) (x : Hidden κ σ) (w : WatcherId) :
    (t.withHidden x).watcher? w = t.watcher? w := rfl

/-! ## Changes that do not look at what is hidden -/

/-- The change does not look at what is hidden, and adds at most some steps to the journal. -/
def Blind (f : Tree κ σ → Tree κ σ) : Prop :=
  ∀ t, ∃ steps, ∀ x : Hidden κ σ, f (t.withHidden x) = (f t).withHidden (x.after steps)

namespace Blind

variable {f g : Tree κ σ → Tree κ σ}

lemma of_eq (h : ∀ t x, f (t.withHidden x) = (f t).withHidden x) : Blind f :=
  fun t => ⟨[], h t⟩

lemma id : Blind (fun t : Tree κ σ => t) := of_eq fun _ _ => rfl

lemma comp (hg : Blind g) (hf : Blind f) : Blind fun t => g (f t) := fun t => by
  obtain ⟨steps, hsteps⟩ := hf t
  obtain ⟨steps', hsteps'⟩ := hg (f t)
  refine ⟨steps' ++ steps, fun x => ?_⟩
  simp only [hsteps, hsteps', Hidden.after, List.append_assoc]

/-- Which of two blind changes is made may depend on what does not look at what is hidden. -/
lemma ite {c : Tree κ σ → Bool} (hc : ∀ t x, c (t.withHidden x) = c t) (hf : Blind f)
    (hg : Blind g) : Blind fun t => if c t then f t else g t := fun t => by
  cases h : c t with
  | true =>
    obtain ⟨steps, hsteps⟩ := hf t
    exact ⟨steps, fun x => by simp only [hc, h, if_true, hsteps]⟩
  | false =>
    obtain ⟨steps, hsteps⟩ := hg t
    exact ⟨steps, fun x => by simp only [hc, h, Bool.false_eq_true, if_false, hsteps]⟩

/-- What a blind change does to what is hidden. -/
lemma exists_steps (hf : Blind f) (t : Tree κ σ) : ∃ steps, (f t).hidden = t.hidden.after steps ∧
    ∀ x, f (t.withHidden x) = (f t).withHidden (x.after steps) := by
  obtain ⟨steps, hsteps⟩ := hf t
  exact ⟨steps, congrArg Tree.hidden (hsteps t.hidden), hsteps⟩

end Blind

lemma blind_note (step : Step κ) : Blind (σ := σ) (·.note step) := fun _ => ⟨[step], fun _ => rfl⟩

lemma blind_enqueue (q : Queue) (s : ScopeId) (work : Work κ) :
    Blind (σ := σ) (·.enqueue q s work) := fun t => ⟨[.queued q t.queues.next], fun _ => rfl⟩

lemma blind_queueAsync (s : ScopeId) (work : Work κ) : Blind (σ := σ) (·.queueAsync s work) := by
  refine .ite (c := fun t => t.phase.isNone && t.queues.async.isEmpty) (fun _ _ => rfl) ?_
    (blind_enqueue .async s work)
  exact fun t => ⟨[.queued .async t.queues.next], fun _ => rfl⟩

lemma blind_armApply : Blind (armApply (κ := κ) (σ := σ)) :=
  .ite (c := fun t => t.applyFlush.isSome || t.queues.apply.isEmpty) (fun _ _ => rfl) .id
    (.of_eq fun _ _ => rfl)

lemma blind_queueApply (s : ScopeId) (work : Work κ) : Blind (σ := σ) (·.queueApply s work) :=
  blind_armApply.comp (blind_enqueue .apply s work)

lemma blind_cancelApply : Blind (cancelApply (κ := κ) (σ := σ)) := .of_eq fun t x => by
  simp only [cancelApply, withHidden_applyFlush]
  cases t.applyFlush <;> rfl

lemma blind_removeWatcher (w : WatcherId) : Blind (κ := κ) (σ := σ) (·.removeWatcher w) := by
  refine .of_eq fun t x => ?_
  cases hw : t.watcher? w with
  | none => simp only [removeWatcher, watcher?_withHidden, hw]
  | some watcher =>
    simp only [removeWatcher, watcher?_withHidden, hw]
    by_cases h : w ∈ ((t.modifyWatcher w ({ · with active := false })).scope watcher.scope).watchers
    · rw [if_pos h]
      exact if_pos h
    · rw [if_neg h]
      exact if_neg h

lemma blind_removeWatchers (ws : List WatcherId) :
    Blind (κ := κ) (σ := σ) (·.removeWatchers ws) := by
  induction ws with
  | nil => exact .id
  | cons w ws ih => exact ih.comp (blind_removeWatcher w)

lemma blind_settle (w : WatcherId) : Blind (κ := κ) (σ := σ) (·.settle w) := fun t => by
  cases hw : t.watcher? w with
  | none => exact ⟨[], fun x => by simp only [settle, watcher?_withHidden, hw]; rfl⟩
  | some watcher =>
    obtain ⟨scope, kind, byValue, active, last⟩ := watcher
    cases kind with
    | oneTime e listener reported =>
      have hblind : Blind (κ := κ) (σ := σ) fun t =>
          if t.store.heap.settled e.isLiteral reported then t.removeWatcher w else t :=
        .ite (fun _ _ => rfl) (blind_removeWatcher w) .id
      obtain ⟨steps, hsteps⟩ := hblind t
      refine ⟨steps, fun x => ?_⟩
      simpa only [settle, watcher?_withHidden, hw] using hsteps x
    | _ => exact ⟨[], fun x => by simp only [settle, watcher?_withHidden, hw]; rfl⟩

lemma blind_removeListener (l : ListenerId) : Blind (κ := κ) (σ := σ) (·.removeListener l) := by
  refine .of_eq fun t x => ?_
  simp only [removeListener, withHidden_listeners]
  cases t.listeners[l]? <;> rfl

lemma blind_deregister (r : Registration) : Blind (κ := κ) (σ := σ) (·.deregister r) := by
  cases r with
  | watcher w => exact blind_removeWatcher w
  | group ws => exact blind_removeWatchers ws
  | announcement a => exact .of_eq fun _ _ => rfl
  | listener l => exact blind_removeListener l

lemma blind_tearDown (s : ScopeId) : Blind (κ := κ) (σ := σ) (·.tearDown s) := by
  refine .of_eq fun t x => ?_
  simp only [tearDown, scope_withHidden]
  cases (t.scope s).parent <;> rfl

lemma blind_addMembers (s : ScopeId) (g : GroupId) (watches : List κ) (index : ℕ) (t : Tree κ σ)
    (x : Hidden κ σ) : (t.withHidden x).addMembers s g index watches =
      ((t.addMembers s g index watches).1,
        (t.addMembers s g index watches).2.withHidden x) := by
  induction watches generalizing t index with
  | nil => rfl
  | cons watch rest ih =>
    have hrest := ih (index + 1) (t.addWatcher s (.member watch g index) false).2
    simp only [addMembers]
    rw [show (t.withHidden x).addWatcher s (.member watch g index) false =
      ((t.addWatcher s (.member watch g index) false).1,
        (t.addWatcher s (.member watch g index) false).2.withHidden x) from rfl]
    simp only [hrest]

end Tree

/-! ## Likenesses -/

/-- A way in which trees may be alike.  They differ in nothing but what is hidden; a change that
does not look at it keeps them alike, and so does a computation on the stores whose hosts are
related. -/
structure Likeness (κ σ : Type) where
  trees : Tree κ σ → Tree κ σ → Prop
  hosts : σ → σ → Prop
  /-- Whether errors that nobody heeds may be there in one of the trees only. -/
  lax : Prop
  hidden : ∀ {t t'}, trees t t' → ∃ x, t' = t.withHidden x
  change : ∀ {f}, Tree.Blind f → ∀ {t t'}, trees t t' → trees (f t) (f t')
  host : ∀ {t t'}, trees t t' → hosts t.store.host t'.store.host
  withStore : ∀ {t t' x x'}, trees t t' → hosts x x' → ∀ heap,
    trees { t with store := ⟨heap, x⟩ } { t' with store := ⟨heap, x'⟩ }

/-- Trees are alike if they differ at most in their journals, and there as `P` says. -/
@[reducible] def Likeness.journal (P : List (Step κ) → List (Step κ) → Prop) (hP : Lasting P) :
    Likeness κ σ where
  trees := Tree.Alike P
  hosts := Eq
  lax := False
  hidden {t t'} h := by
    obtain ⟨journal, -, rfl⟩ := h
    exact ⟨⟨journal, t.store.host⟩, rfl⟩
  change {f} hf {t t'} h := by
    obtain ⟨journal, hjournal, rfl⟩ := h
    obtain ⟨steps, hhidden, hsteps⟩ := hf.exists_steps t
    obtain ⟨hleft, hhost⟩ := Tree.Hidden.mk.inj hhidden
    refine ⟨steps ++ journal, hleft ▸ hP.append hjournal steps, ?_⟩
    calc f (t.withHidden ⟨journal, t.store.host⟩)
        = (f t).withHidden ⟨steps ++ journal, t.store.host⟩ := hsteps _
      _ = (f t).withJournal (steps ++ journal) := by
        rw [show t.store.host = (f t).store.host from hhost.symm]
        rfl
  host {t t'} h := by
    obtain ⟨journal, -, rfl⟩ := h
    rfl
  withStore {t t' x x'} h hhost heap := by
    obtain ⟨journal, hjournal, rfl⟩ := h
    exact ⟨journal, hjournal, hhost ▸ rfl⟩

/-! ## Routines in trees that are alike -/

open DataBinding.Tree (Alike Blind)

namespace Routine

variable {L : Likeness κ σ}

lemma follows_read {f : Tree κ σ → α} (h : ∀ t x, f (t.withHidden x) = f t) :
    Follows L.trees (Compute.read f) (Compute.read f) :=
  .read fun t t' ht => by
    obtain ⟨x, rfl⟩ := L.hidden ht
    exact h t x

lemma follows_change {f : Tree κ σ → Tree κ σ} (h : Blind f) :
    Follows L.trees (Compute.change f) (Compute.change f) :=
  .change fun _ _ ht => L.change h ht

lemma follows_alter {f : Tree κ σ → α × Tree κ σ}
    (h : ∀ t x, f (t.withHidden x) = ((f t).1, (f t).2.withHidden x)) :
    Follows L.trees (Compute.alter f) (Compute.alter f) :=
  .alter fun t t' ht => by
    refine ⟨?_, L.change (f := fun t => (f t).2) (.of_eq fun t x => ?_) ht⟩
    · obtain ⟨x, rfl⟩ := L.hidden ht
      rw [h]
    · rw [h]

section Partial

variable {f : Tree κ σ → Option (α × Tree κ σ)}
  (h : ∀ t, ∃ steps, ∀ x : Tree.Hidden κ σ, f (t.withHidden x) =
    (f t).map fun (a, u) => (a, u.withHidden (x.after steps)))

include h

lemma exists_alike_of_some {t t' u : Tree κ σ} {a : α} (ht : L.trees t t')
    (hu : f t = some (a, u)) : ∃ u', f t' = some (a, u') ∧ L.trees u u' := by
  -- a change that leaves the tree as it is where there is nothing to make
  let g : Tree κ σ → Tree κ σ := fun t => (f t).elim t (·.2)
  have hg : Blind g := fun t => by
    obtain ⟨steps, hsteps⟩ := h t
    cases hf : f t with
    | none => exact ⟨[], fun x => by simp only [g, hsteps, hf]; rfl⟩
    | some y => exact ⟨steps, fun x => by simp only [g, hsteps, hf]; rfl⟩
  have hgt := L.change hg ht
  obtain ⟨x, rfl⟩ := L.hidden ht
  obtain ⟨steps, hsteps⟩ := h t
  have hu' : f (t.withHidden x) = some (a, u.withHidden (x.after steps)) := by
    rw [hsteps, hu]
    rfl
  simp only [g, hu, hu', Option.elim_some] at hgt
  exact ⟨_, hu', hgt⟩

lemma follows_alter? : Follows L.trees (Compute.alter? f) (Compute.alter? f) := by
  refine .alter? (fun t t' ht hnone => ?_) fun _ _ _ _ => exists_alike_of_some h
  obtain ⟨x, rfl⟩ := L.hidden ht
  obtain ⟨steps, hsteps⟩ := h t
  rw [hsteps, hnone]
  rfl

end Partial

lemma follows_onStore {m m' : Compute (Store σ) α} (h : Follows (Store.Alike L.hosts) m m') :
    Follows L.trees (Routine.onStore (κ := κ) m) (Routine.onStore m') := by
  refine h.within (fun t t' ht => ?_) fun t t' s s' ht hs => ?_
  · obtain ⟨x, rfl⟩ := L.hidden ht
    exact ⟨rfl, L.host ht⟩
  · obtain ⟨heap, host⟩ := s'
    obtain ⟨hheap, hhost⟩ := hs
    change heap = s.heap at hheap
    subst hheap
    exact L.withStore ht hhost _

lemma follows_making {f : Heap → α × Heap} : Follows L.trees
    (Routine.onStore (κ := κ) (Store.making f)) (Routine.onStore (Store.making f)) :=
  follows_onStore <| .alter fun _ _ ⟨hheap, hhost⟩ => by
    rw [hheap]
    exact ⟨rfl, rfl, hhost⟩

lemma follows_changing {f : Heap → Heap} : Follows L.trees
    (Routine.onStore (κ := κ) (Store.changing f)) (Routine.onStore (Store.changing f)) :=
  follows_onStore <| .change fun _ _ ⟨hheap, hhost⟩ => ⟨congrArg f hheap, hhost⟩

end Routine

/-! ## Akin engines -/

/-- The tree after the host was told of an error. -/
def Tree.reported (t : Tree κ σ) (report : Error → σ → σ) (e : Error) : Tree κ σ :=
  { t with store := { t.store with host := report e t.store.host } }.note (.reported e)

/-- The functions of the host, its filters and its way with errors do the same in trees that are
alike.  If errors may be there in one of the trees only, then being told of one changes nothing. -/
structure Likeness.Suits (L : Likeness κ σ) (library : Library σ) (report : Error → σ → σ) :
    Prop where
  respected : Respected library (Store.Alike L.hosts)
  reports : ∀ e {x x'}, L.hosts x x' → L.hosts (report e x) (report e x')
  pardons : L.lax → ∀ e {t t'}, L.trees t t' →
    L.trees (t.reported report e) t' ∧ L.trees t (t'.reported report e)

/-- Whether the engine heeds what becomes of the call: it goes on with the value, and hands the
error to whoever has asked for the call.  Of a listener or a task the error goes to the host. -/
def Invocation.isHeeded : Invocation → Bool
  | .watch _ => true
  | .body _ => true
  | .changed _ _ => false
  | .event _ _ => false
  | .task _ => false

namespace Engine

/-- The tree after the host was told of the error that something has ended with, if it was one. -/
def afterResult (E : Engine κ σ) : Except Error Unit → Tree κ σ → Tree κ σ
  | .ok _, t => t
  | .error e, t => t.reported E.report e

lemma runOn_contained (E : Engine κ σ) (m : Routine κ σ Unit) (t : Tree κ σ) :
    Compute.runOn (E.contained m) t =
      (Compute.runOn m t).map fun (x, u) => (.ok (), E.afterResult x u) := by
  rw [contained, Compute.runOn_bind, Compute.runOn_attempt]
  rcases Compute.runOn m t with _ | ⟨_ | _, u⟩ <;> rfl

/-- In trees that are alike the second engine does what the first one does, wherever that has an
end. -/
structure Akin (L : Likeness κ σ) (E E' : Engine κ σ) : Prop where
  library : E'.library = E.library
  report : E'.report = E.report
  suits : L.Suits E.library E.report
  limit : E.limit ≤ E'.limit
  invoke : ∀ procedure how, Shadows (L.lax ∧ how.isHeeded = false) L.trees
    (E.invoke procedure how) (E'.invoke procedure how)

variable {L : Likeness κ σ} {E E' : Engine κ σ}

/-! ## Calls and expressions -/

lemma follows_parse (source : String) :
    Follows L.trees (Routine.parse (κ := κ) (σ := σ) source) (Routine.parse source) :=
  (Routine.follows_alter fun _ _ => rfl).bind fun e => .ofExcept e

section Calls

variable (hE : E.Akin L E')

include hE

lemma trees_reported (e : Error) {t t' : Tree κ σ} (ht : L.trees t t') :
    L.trees (t.reported E.report e) (t'.reported E'.report e) := by
  obtain ⟨x, rfl⟩ := L.hidden ht
  have hhosts := L.withStore ht (hE.suits.reports e (L.host ht)) t.store.heap
  rw [Tree.reported, Tree.reported, hE.report]
  exact L.change (Tree.blind_note _) hhosts

lemma follows_reportError (e : Error) :
    Follows L.trees (E.reportError e) (E'.reportError e) := by
  rintro t t' r u ht h
  cases h
  exact ⟨_, rfl, trees_reported hE e ht⟩

lemma trees_afterResult {x x' : Except Error Unit} (hx : L.lax ∨ x' = x) {t t' : Tree κ σ}
    (ht : L.trees t t') : L.trees (E.afterResult x t) (E'.afterResult x' t') := by
  rcases hx with hlax | rfl
  · have hright : L.trees t (E'.afterResult x' t') := by
      cases x' with
      | ok => exact ht
      | error e =>
        rw [afterResult, hE.report]
        exact (hE.suits.pardons hlax e ht).2
    cases x with
    | ok => exact hright
    | error e => exact (hE.suits.pardons hlax e hright).1
  · cases x' with
    | ok => exact ht
    | error e => exact trees_reported hE e ht

/-- What becomes of a contained routine is not heeded. -/
lemma follows_contained {m m' : Routine κ σ Unit} (hm : Shadows L.lax L.trees m m') :
    Follows L.trees (E.contained m) (E'.contained m') := by
  rintro t t' r u ht h
  rw [runOn_contained] at h ⊢
  obtain ⟨⟨x, v⟩, hrun, hend⟩ := Option.map_eq_some_iff.1 h
  cases hend
  obtain ⟨x', v', hrun', hx, hv⟩ := hm ht hrun
  exact ⟨_, by rw [hrun']; rfl, trees_afterResult hE hx hv⟩

lemma follows_evaluate (s : ScopeId) (e : Expression) (locals : Option Value) :
    Follows L.trees (E.evaluate s e locals) (E'.evaluate s e locals) := by
  refine (Routine.follows_read fun _ _ => rfl).bind fun data => ?_
  rw [hE.library]
  exact Routine.follows_onStore (e.follows_eval hE.suits.respected hE.limit _ _)

lemma follows_evaluateInputs (s : ScopeId) (e : Expression) :
    Follows L.trees (E.evaluateInputs s e) (E'.evaluateInputs s e) := by
  refine (Routine.follows_read fun _ _ => rfl).bind fun data => ?_
  rw [hE.library]
  exact .mapM (fun part =>
    Routine.follows_onStore (e.follows_evalPart hE.suits.respected hE.limit part _ _)) _

lemma follows_evaluateSource (s : ScopeId) (source : String) (locals : Option Value) :
    Follows L.trees (E.evaluateSource s source locals) (E'.evaluateSource s source locals) :=
  (follows_parse source).bind fun e => follows_evaluate hE s e locals

lemma shadows_call (procedure : κ) (how : Invocation) :
    Shadows (L.lax ∧ how.isHeeded = false) L.trees (E.call procedure how)
      (E'.call procedure how) :=
  (Routine.follows_change (Tree.blind_note _)).bind_shadows fun _ => hE.invoke procedure how

lemma follows_call (procedure : κ) {how : Invocation} (hhow : how.isHeeded = true) :
    Follows L.trees (E.call procedure how) (E'.call procedure how) :=
  (shadows_call hE procedure how).follows fun ⟨_, hfree⟩ =>
    Bool.false_ne_true (hfree.symm.trans hhow)

lemma shadows_tell (listener : κ) (s : ScopeId) (change : Change) :
    Shadows L.lax L.trees (E.tell listener s change) (E'.tell listener s change) :=
  (shadows_call hE _ _).discard.mono And.left

/-! ## Tasks -/

lemma shadows_callGroup (s : ScopeId) (g : GroupId) :
    Shadows L.lax L.trees (E.callGroup s g) (E'.callGroup s g) := by
  refine (Routine.follows_read fun _ _ => rfl).bind_shadows fun group => ?_
  cases group with
  | none => exact (Follows.pure ()).shadows _
  | some group =>
    refine (Routine.follows_alter fun _ _ => rfl).bind_shadows fun change => ?_
    -- whatever the listener comes to, the group has no call waiting any more
    exact (shadows_tell hE _ _ _).attempt_bind fun _ _ hresult =>
      (Routine.follows_change (.of_eq fun _ _ => rfl)).bind_shadows fun _ => .ofExcept hresult

lemma shadows_announce (s : ScopeId) (a : ℕ) :
    Shadows L.lax L.trees (E.announce s a) (E'.announce s a) := by
  refine (Routine.follows_read fun _ _ => rfl).bind_shadows fun announcement => ?_
  cases announcement with
  | none => exact (Follows.pure ()).shadows _
  | some announcement =>
    dsimp only
    split
    · exact (Follows.pure ()).shadows _
    · exact Routine.follows_making.bind_shadows fun _ => shadows_tell hE _ _ _

lemma shadows_perform (s : ScopeId) (work : Work κ) :
    Shadows L.lax L.trees (E.perform s work) (E'.perform s work) := by
  cases work with
  | procedure body => exact (shadows_call hE _ _).discard.mono And.left
  | group g => exact shadows_callGroup hE s g
  | announcement a => exact shadows_announce hE s a
  | settle w => exact (Routine.follows_change (Tree.blind_settle w)).shadows _
  | rearm => exact (Routine.follows_change Tree.blind_armApply).shadows _

lemma follows_drainWithin (q : Queue) {limit limit' : ℕ} (hlimit : limit ≤ limit') :
    Follows L.trees (E.drainWithin q limit) (E'.drainWithin q limit') := by
  induction limit generalizing limit' with
  | zero => exact .endless
  | succ limit ih =>
    obtain ⟨limit', rfl⟩ := Nat.exists_eq_add_of_le' (Nat.lt_of_lt_of_le limit.succ_pos hlimit)
    refine (Routine.follows_alter? fun t => ?_).bind fun task => ?_
    · simp only [Tree.dequeue?, Tree.withHidden_queues]
      cases t.queues.tasks q with
      | nil => exact ⟨[], fun _ => rfl⟩
      | cons task rest => exact ⟨[.started q task.number], fun _ => rfl⟩
    · cases task with
      | none => exact .pure ()
      | some task =>
        exact (follows_contained hE (shadows_perform hE _ _)).bind fun _ =>
          ih (Nat.le_of_succ_le_succ hlimit)

lemma follows_drain (q : Queue) : Follows L.trees (E.drain q) (E'.drain q) :=
  follows_drainWithin hE q hE.limit

/-! ## Events -/

lemma follows_hear (e : EventId) (args : List Value) (l : ListenerId) :
    Follows L.trees (E.hear e args l) (E'.hear e args l) := by
  refine (Routine.follows_read fun _ _ => rfl).bind fun listener => ?_
  split
  · exact follows_contained hE ((shadows_call hE _ _).discard.mono And.left)
  · exact .pure ()

lemma follows_hearAll (e : EventId) (args : List Value) (ls : List ListenerId) :
    Follows L.trees (E.hearAll e args ls) (E'.hearAll e args ls) := by
  induction ls with
  | nil => exact .pure ()
  | cons l ls ih => exact (follows_hear hE e args l).bind fun _ => ih

lemma follows_deliver (e : EventId) (name : String) (args : List Value) (s : ScopeId) :
    Follows L.trees (E.deliver e name args s) (E'.deliver e name args s) :=
  (Routine.follows_change (.of_eq fun _ _ => rfl)).bind fun _ =>
    (Routine.follows_read fun _ _ => rfl).bind fun ls => follows_hearAll hE e args ls

lemma follows_climb (e : EventId) (name : String) (args : List Value) (s : ScopeId) :
    Follows L.trees (E.climb e name args s) (E'.climb e name args s) := by
  induction s using Nat.strongRecOn with
  | ind s ih =>
    rw [climb, climb]
    refine (follows_deliver hE e name args s).bind fun _ =>
      (Routine.follows_read fun _ _ => rfl).bind fun stopped => ?_
    cases stopped with
    | true => exact .pure ()
    | false =>
      refine (Routine.follows_read fun _ _ => rfl).bind fun parent => ?_
      cases parent with
      | none => exact .pure ()
      | some p =>
        by_cases hp : p < s
        · simpa [hp] using ih p hp
        · simpa [hp] using Follows.pure ()

omit hE in
lemma follows_send (target : ScopeId) (name : String) (stoppable : Bool)
    {travel travel' : EventId → Routine κ σ Unit}
    (htravel : ∀ e, Follows L.trees (travel e) (travel' e)) :
    Follows L.trees (send target name stoppable travel) (send target name stoppable travel') :=
  (Routine.follows_alter fun _ _ => rfl).bind fun e => (htravel e).bind fun _ =>
    (Routine.follows_change (.of_eq fun _ _ => rfl)).bind fun _ => .pure e

lemma follows_emit (s : ScopeId) (name : String) (args : List Value) :
    Follows L.trees (E.emit s name args) (E'.emit s name args) :=
  follows_send s name true fun e => follows_climb hE e name args s

end Calls

end Engine

end DataBinding
