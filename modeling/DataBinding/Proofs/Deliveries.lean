import DataBinding.Proofs.Itineraries
import DataBinding.Proofs.Listeners
import DataBinding.Proofs.Suspension

/-!
# Who hears an event

In every scope that an event comes to, the listeners for it that are registered at this moment have
their turns in the order of registration, and those hear it that are still there in their turn,
whatever the listeners before them do.  An emitted event goes up to the first scope in which a
listener asks for a stop, and a broadcast goes to all descendants (`Host.event_delivery`).
-/

namespace DataBinding

open Compute (Leads runOn)
open DataBinding.Tree (Holds Suspends Episode)

variable {κ σ α : Type}

/-! ## What listeners ask for -/

/-- What a listener can ask of an event. -/
inductive Wish where
  | stop
  | prevent
deriving DecidableEq

/-- Whether that was asked of the event. -/
def Wish.asked : Wish → Event → Bool
  | .stop, x => x.stopped
  | .prevent, x => x.prevented

/-- The request by which it is asked. -/
def Wish.request (e : EventId) : Wish → Request κ σ Unit
  | .stop => .stop e
  | .prevent => .prevent e

/-- The event after that was asked. -/
def Wish.grant : Wish → Event → Event
  | .stop, x => x.stop
  | .prevent, x => x.prevent

/-- An event that cannot be stopped can still be prevented. -/
lemma Wish.asked_grant {wish : Wish} {x : Event} (h : wish = .stop → x.stoppable = true) :
    wish.asked (wish.grant x) = true := by
  cases wish with
  | stop => simp [asked, grant, Event.stop, h rfl]
  | prevent => rfl

namespace Tree

variable {t u : Tree κ σ} {e : EventId} {s : ScopeId} {wish : Wish}

/-- Whether that was asked of an event. -/
def asked (t : Tree κ σ) (e : EventId) (wish : Wish) : Bool := (t.events[e]?).any wish.asked

lemma asked_iff : t.asked e wish = true ↔ ∃ x, t.events[e]? = some x ∧ wish.asked x = true := by
  rw [asked, Option.any_eq_true]

/-- Where an event is makes no difference to what was asked of it. -/
lemma asked_modifyEvent {f : Event → Event} (hf : ∀ x, wish.asked (f x) = wish.asked x) :
    (t.modifyEvent e f).asked e wish = t.asked e wish := by
  rw [Tree.asked, Tree.asked, modifyEvent, Array.getElem?_modify, if_pos rfl, Option.any_map]
  exact congrArg (Option.any · _) (funext hf)

@[simp] lemma asked_enter (t : Tree κ σ) (e : EventId) (s : ScopeId) (wish : Wish) :
    (t.modifyEvent e (·.enter s)).asked e wish = t.asked e wish :=
  asked_modifyEvent fun _ => by cases wish <;> rfl

/-- The tree with an event that has just been made: it is nowhere yet, and nothing was asked of
it. -/
def made (t : Tree κ σ) (name : String) (target : ScopeId) (stoppable : Bool) : Tree κ σ :=
  { t with events := t.events.push { name, target, stoppable } }

lemma getElem?_made (t : Tree κ σ) (name : String) (target : ScopeId) (stoppable : Bool) :
    (t.made name target stoppable).events[t.events.size]? = some { name, target, stoppable } :=
  Array.getElem?_push_size

lemma asked_made (t : Tree κ σ) (name : String) (target : ScopeId) (stoppable : Bool)
    (wish : Wish) : (t.made name target stoppable).asked t.events.size wish = false := by
  rw [asked, getElem?_made]
  cases wish <;> rfl

/-- The event goes from one place to another at most. -/
def Carries (e : EventId) (t u : Tree κ σ) : Prop :=
  ∀ x, t.events[e]? = some x → ∃ y, u.events[e]? = some y ∧ x.finish.Waits y.finish

instance : IsPreorder (Tree κ σ) (Carries e) where
  refl _ x hx := ⟨x, hx, .refl _⟩
  trans _ _ _ h₁ h₂ x hx := by
    obtain ⟨y, hy, hxy⟩ := h₁ x hx
    obtain ⟨z, hz, hyz⟩ := h₂ y hy
    exact ⟨z, hz, hxy.trans hyz⟩

lemma Holds.carries (h : Holds e t u) : Carries e t u := fun x hx => by
  obtain ⟨y, hy, hwaits⟩ := h x hx
  exact ⟨y, hy, hwaits.name, hwaits.target, hwaits.stoppable, rfl, hwaits.stopped,
    hwaits.prevented⟩

lemma getElem?_modifyEvent_self {x : Event} (hx : t.events[e]? = some x) (f : Event → Event) :
    (t.modifyEvent e f).events[e]? = some (f x) := by
  simp [modifyEvent, Array.getElem?_modify, hx]

lemma carries_enter (t : Tree κ σ) (e : EventId) (s : ScopeId) :
    Carries e t (t.modifyEvent e (·.enter s)) := fun x hx =>
  ⟨x.enter s, getElem?_modifyEvent_self hx _, rfl, rfl, rfl, rfl, id, id⟩

namespace Carries

lemma lt_size (h : Carries e t u) (he : e < t.events.size) : e < u.events.size := by
  obtain ⟨y, hy, -⟩ := h _ (Array.getElem?_eq_getElem he)
  exact (Array.getElem?_eq_some_iff.1 hy).1

/-- What was asked of an event stays asked for. -/
lemma asked (h : Carries e t u) (ht : t.asked e wish = true) : u.asked e wish = true := by
  obtain ⟨x, hx, hasked⟩ := asked_iff.1 ht
  obtain ⟨y, hy, hwaits⟩ := h x hx
  refine asked_iff.2 ⟨y, hy, ?_⟩
  cases wish with
  | stop => exact hwaits.stopped hasked
  | prevent => exact hwaits.prevented hasked

end Carries

/-- The scopes that an event comes to on its way up. -/
def ancestry (t : Tree κ σ) (s : ScopeId) : List ScopeId :=
  s :: match (t.scope s).parent with
    | some p => if p < s then t.ancestry p else []
    | none => []
termination_by s

lemma le_of_mem_ancestry {a : ScopeId} (ha : a ∈ t.ancestry s) : a ≤ s := by
  induction s using Nat.strongRecOn with
  | ind s ih =>
    rw [ancestry] at ha
    rcases List.mem_cons.1 ha with rfl | ha
    · exact le_rfl
    · split at ha
      · split at ha
        · next hp => exact (ih _ hp ha).trans hp.le
        · cases ha
      · cases ha

lemma nodup_ancestry (t : Tree κ σ) (s : ScopeId) : (t.ancestry s).Nodup := by
  induction s using Nat.strongRecOn with
  | ind s ih =>
    rw [ancestry]
    refine List.nodup_cons.2 ⟨fun hs => ?_, ?_⟩
    · split at hs
      · split at hs
        · next hp => exact absurd (le_of_mem_ancestry hs) (not_le.2 hp)
        · cases hs
      · cases hs
    · split
      · split
        · next hp => exact ih _ hp
        · exact List.nodup_nil
      · exact List.nodup_nil

/-- The way up begins with the scope itself. -/
lemma ancestry_eq_cons (t : Tree κ σ) (s : ScopeId) :
    t.ancestry s = s :: (t.ancestry s).tail := by
  rw [ancestry]
  rfl

/-- A scope keeps its parent for good. -/
lemma Later.ancestry_eq (h : Later t u) (hs : s < t.scopes.size) :
    u.ancestry s = t.ancestry s := by
  induction s using Nat.strongRecOn with
  | ind s ih =>
    rw [ancestry, (h.scope s hs).parent]
    conv_rhs => rw [ancestry]
    split
    · split
      · next hp => rw [ih _ hp (hp.trans hs)]
      · rfl
    · rfl

end Tree

namespace Leg

/-- In its turn a listener has something asked of an event that nobody had asked before. -/
def Raises (leg : Leg ℕ κ σ) (e : EventId) (wish : Wish) : Prop :=
  leg.before.asked e wish = false ∧ leg.after.asked e wish = true

/-- The call in which a listener hears an event in its turn. -/
def hearing? (e : EventId) (args : List Value) (leg : Leg ℕ κ σ) : Option (κ × Invocation) :=
  (leg.before.listeners[leg.of]?).map fun x => (x.procedure, .event e args)

end Leg

namespace Stop

/-- The turns of listeners that are still there. -/
def hearers (stop : Stop κ σ) : List (Leg ℕ κ σ) :=
  stop.legs.filter fun leg => leg.before.isListening leg.of

/-- The calls in which they hear an event. -/
def hearings (e : EventId) (args : List Value) (stop : Stop κ σ) : List (κ × Invocation) :=
  stop.hearers.filterMap (·.hearing? e args)

end Stop

namespace Engine

variable {E : Engine κ σ} {t u : Tree κ σ} {e : EventId} {name : String} {args : List Value}
  {s : ScopeId} {l : ListenerId} {wish : Wish}

/-- A turn of a listener. -/
def Hears (E : Engine κ σ) (e : EventId) (args : List Value) (l : ListenerId) (t u : Tree κ σ) :
    Prop :=
  runOn (E.hear e args l) t = some (.ok (), u)

/-- A stop of an event: the event is delivered in the scope, and the listeners that the scope has
for it when it comes there have their turns. -/
structure Delivers (E : Engine κ σ) (e : EventId) (name : String) (args : List Value)
    (stop : Stop κ σ) (t u : Tree κ σ) : Prop where
  run : runOn (E.deliver e name args stop.scope) t = some (.ok (), u)
  listeners : stop.legs.map Leg.of = t.listenersFor stop.scope name
  turns : Itinerary (E.Hears e args) stop.legs (t.modifyEvent e (·.enter stop.scope)) u

/-! ## Programs that are run -/

/-- A program that is run from the first tree on comes to what is left of it and to the second
tree. -/
inductive ComesTo (E : Engine κ σ) : Program κ σ α → Tree κ σ → Program κ σ α → Tree κ σ → Prop
  | here (p : Program κ σ α) (t : Tree κ σ) : ComesTo E p t p t
  | later {β : Type} {q : Request κ σ β} {next : Except Error β → Program κ σ α}
    {r : Except Error β} {t v u : Tree κ σ} {p : Program κ σ α}
    (hanswer : runOn (E.answer q) t = some (r, v)) (hrest : ComesTo E (next r) v p u) :
    ComesTo E (.ask q next) t p u

/-- The run of a program goes on as the rest of it does. -/
lemma ComesTo.run {p p' : Program κ σ α} {v : Tree κ σ} {r : Except Error α}
    (h : E.ComesTo p t p' v) (hrun : runOn (E.execute p) t = some (r, u)) :
    runOn (E.execute p') v = some (r, u) := by
  induction h with
  | here => exact hrun
  | later hanswer _ ih =>
    rw [execute, Compute.runOn_attempt_bind_of_run hanswer] at hrun
    exact ih hrun

lemma ComesTo.answer {β : Type} {q : Request κ σ β} {next : Except Error β → Program κ σ α}
    {p : Program κ σ α} {v : Tree κ σ} {r : Except Error β} (h : E.ComesTo p t (.ask q next) v)
    (hanswer : runOn (E.answer q) v = some (r, u)) : E.ComesTo p t (next r) u := by
  generalize hp : Program.ask q next = p' at h
  induction h with
  | here =>
    subst hp
    exact .later hanswer (.here _ _)
  | later hfirst _ ih => exact .later hfirst (ih hanswer hp)

/-- What comes to hold in the run of a program comes to hold in one of its requests. -/
lemma exists_request_of_execute {P : Tree κ σ → Prop} {p : Program κ σ α} {r : Except Error α}
    (h : runOn (E.execute p) t = some (r, u)) (ht : ¬ P t) (hu : P u) :
    ∃ (β : Type) (q : Request κ σ β) (next : Except Error β → Program κ σ α)
      (v w : Tree κ σ) (a : Except Error β), E.ComesTo p t (.ask q next) v ∧
        runOn (E.answer q) v = some (a, w) ∧ ¬ P v ∧ P w := by
  induction p generalizing t with
  | done result =>
    rw [execute, Compute.runOn_ofExcept] at h
    cases h
    exact absurd hu ht
  | ask q next ih =>
    obtain ⟨a, v, hanswer, hrest⟩ := Compute.runOn_attempt_bind_cases h
    by_cases hv : P v
    · exact ⟨_, q, next, t, v, a, .here _ _, hanswer, ht, hv⟩
    · obtain ⟨β, q', next', v', w, a', hcomes, hasked⟩ := ih a hrest hv
      exact ⟨β, q', next', v', w, a', .later hanswer hcomes, hasked⟩

/-! ## Turns -/

lemma exists_itinerary_of_hearAll {ls : List ListenerId} {r : Except Error Unit}
    (h : runOn (E.hearAll e args ls) t = some (r, u)) :
    r = .ok () ∧ ∃ legs, legs.map Leg.of = ls ∧ Itinerary (E.Hears e args) legs t u := by
  induction ls generalizing t with
  | nil =>
    cases h
    exact ⟨rfl, [], rfl, .done _⟩
  | cons l ls ih =>
    rcases Compute.runOn_bind_cases h with ⟨error, hfirst, -⟩ | ⟨_, v, hfirst, hrest⟩
    · cases (hear_steps hfirst).1
    · obtain ⟨hr, legs, rfl, hlegs⟩ := ih hrest
      exact ⟨hr, ⟨l, t, v⟩ :: legs, rfl, .next hfirst hlegs⟩

lemma exists_delivers {r : Except Error Unit}
    (h : runOn (E.deliver e name args s) t = some (r, u)) :
    r = .ok () ∧ ∃ stop : Stop κ σ, stop.scope = s ∧ E.Delivers e name args stop t u := by
  have hrun := h
  rw [deliver, Compute.runOn_change_bind, Compute.runOn_read_bind] at h
  obtain ⟨rfl, legs, hlegs, hturns⟩ := exists_itinerary_of_hearAll h
  exact ⟨rfl, ⟨s, legs⟩, rfl, hrun, hlegs, hturns⟩

/-- In its turn a listener is called if it is still there, and its error is reported at most. -/
lemma hears_cases (h : E.Hears e args l t u) :
    t.isListening l = false ∧ u = t ∨ ∃ x r v, t.listeners[l]? = some x ∧ x.active = true ∧
      runOn (E.invoke x.procedure (.event e args)) (t.note (.called x.procedure (.event e args))) =
        some (r, v) ∧ Suspends e v u ∧ u.events = v.events := by
  obtain ⟨-, hmissed | ⟨x, hx, hactive, hcall⟩⟩ := hear_steps h
  · exact .inl hmissed
  obtain ⟨-, r₁, v, hcalled, hend⟩ := runOn_contained_cases hcall
  obtain ⟨r, hcalled, -⟩ := Compute.runOn_discard_cases hcalled
  rw [call, Compute.runOn_change_bind] at hcalled
  refine .inr ⟨x, r, v, hx, hactive, hcalled, ?_⟩
  rcases hend with ⟨-, rfl⟩ | ⟨error, -, hreported⟩
  · exact ⟨refl_of (Suspends e) u, rfl⟩
  · cases hreported
    exact ⟨.of_same rfl rfl, rfl⟩

section Waiting

variable (hinvoke : ∀ procedure how, Leads (Suspends e) (E.invoke procedure how))

include hinvoke

lemma holds_of_hears (h : E.Hears e args l t u) : Holds e t u := by
  rcases hears_cases h with ⟨-, rfl⟩ | ⟨x, r, v, -, -, hrun, hrest, -⟩
  · exact refl_of (Holds e) u
  · have hcalled : Holds e t (t.note (.called x.procedure (.event e args))) :=
      Tree.holds_of_getElem? rfl
    exact trans_of (Holds e) hcalled (trans_of (Suspends e) (hinvoke _ _ hrun) hrest).holds

lemma hearings_of_hears (he : e < t.events.size) (h : E.Hears e args l t u) :
    u.hearings e = (if t.isListening l then (Leg.mk l t u).hearing? e args else none).toList ++
      t.hearings e := by
  rcases hears_cases h with ⟨hmissed, rfl⟩ | ⟨x, r, v, hx, hactive, hrun, hrest, -⟩
  · rw [hmissed]
    rfl
  · have hthere : t.isListening l = true := by simp [Tree.isListening, hx, hactive]
    have hcalled : (Leg.mk l t u).hearing? e args = some (x.procedure, .event e args) := by
      simp [Leg.hearing?, hx]
    rw [(trans_of (Suspends e) (hinvoke _ _ hrun) hrest).hearings he, hthere, hcalled]
    exact List.filter_cons_of_pos (by simp [Invocation.event?])

/-! ## Stops -/

variable {stop : Stop κ σ} {leg : Leg ℕ κ σ}

/-- While a listener has its turn the event is in the scope, and what was asked of it before the
turn or in it stays asked for. -/
lemma between_of_delivers (h : E.Delivers e name args stop t u) (hleg : leg ∈ stop.legs) :
    Holds e (t.modifyEvent e (·.enter stop.scope)) leg.before ∧ Holds e leg.after u :=
  h.turns.between (fun _ _ _ => holds_of_hears hinvoke) hleg

lemma current_of_delivers {x : Event} (hx : t.events[e]? = some x)
    (h : E.Delivers e name args stop t u) (hleg : leg ∈ stop.legs) :
    ∃ y, leg.before.events[e]? = some y ∧ y.current = some stop.scope := by
  obtain ⟨y, hy, hwaits⟩ := (between_of_delivers hinvoke h hleg).1 _
    (Tree.getElem?_modifyEvent_self hx (·.enter stop.scope))
  exact ⟨y, hy, hwaits.current⟩

/-- At a stop the event comes to its scope and waits there. -/
lemma carries_of_delivers (h : E.Delivers e name args stop t u) : Tree.Carries e t u :=
  trans_of (Tree.Carries e) (t.carries_enter e stop.scope)
    (h.turns.related fun _ _ _ => holds_of_hears hinvoke).carries

/-- At a stop those are called that are still there in their turn. -/
lemma hearings_of_delivers (he : e < t.events.size) (h : E.Delivers e name args stop t u) :
    u.hearings e = (stop.hearings e args).reverse ++ t.hearings e := by
  rw [Stop.hearings, Stop.hearers, List.filterMap_filter, List.filterMap_eq_flatMap_toList]
  refine h.turns.tally (g := fun t => t.hearings e) (P := fun t => e < t.events.size) ?_
    (fun _ _ _ he h => (holds_of_hears hinvoke h).lt_size he) fun l t v he h => ?_
  · simpa [Tree.modifyEvent] using he
  · rw [hearings_of_hears hinvoke he h]
    cases t.isListening l <;> cases (Leg.mk l t v).hearing? e args <;> rfl

omit hinvoke in
/-- A listener that has something asked is called. -/
lemma mem_hearers_of_raises (h : E.Delivers e name args stop t u) (hleg : leg ∈ stop.legs)
    (hraises : leg.Raises e wish) : leg ∈ stop.hearers := by
  refine List.mem_filter.2 ⟨hleg, ?_⟩
  rcases hears_cases (h.turns.step_of_mem hleg) with ⟨-, hsame⟩ | ⟨x, -, -, hx, hactive, -⟩
  · obtain ⟨hbefore, hafter⟩ := hraises
    rw [hsame, hbefore] at hafter
    cases hafter
  · simp [Tree.isListening, hx, hactive]

/-- What comes to be asked for at a stop is asked for by a listener that is called there. -/
lemma asked_iff_of_delivers (h : E.Delivers e name args stop t u) (ht : t.asked e wish = false) :
    u.asked e wish = true ↔ ∃ leg ∈ stop.hearers, leg.Raises e wish := by
  constructor
  · intro hu
    have hentered : ¬ (t.modifyEvent e (·.enter stop.scope)).asked e wish = true := by
      rw [Tree.asked_enter, ht]
      exact Bool.false_ne_true
    obtain ⟨leg, hleg, hbefore, hafter⟩ :=
      h.turns.exists_turn (P := fun t => t.asked e wish = true) hentered hu
    have hraises : leg.Raises e wish := ⟨Bool.eq_false_iff.2 hbefore, hafter⟩
    exact ⟨leg, mem_hearers_of_raises h hleg hraises, hraises⟩
  · rintro ⟨leg, hleg, -, hafter⟩
    exact (between_of_delivers hinvoke h (List.mem_filter.1 hleg).1).2.carries.asked hafter

end Waiting

/-! ## Ways up -/

/-- An event that is delivered in a scope stays there if it is stopped or if there is no way up, and
else it goes on to the parent. -/
lemma climb_cases {r : Except Error Unit} (h : runOn (E.climb e name args s) t = some (r, u)) :
    ∃ stop v, stop.scope = s ∧ E.Delivers e name args stop t v ∧
      ((v.asked e .stop = true ∨ v.ancestry s = [s]) ∧ r = .ok () ∧ u = v ∨
        v.asked e .stop = false ∧ ∃ p < s, (v.scope s).parent = some p ∧
          runOn (E.climb e name args p) v = some (r, u)) := by
  rw [climb] at h
  rcases Compute.runOn_bind_cases h with ⟨error, hdelivered, -⟩ | ⟨_, v, hdelivered, hrest⟩
  · cases (exists_delivers hdelivered).1
  obtain ⟨-, stop, hscope, hstop⟩ := exists_delivers hdelivered
  refine ⟨stop, v, hscope, hstop, ?_⟩
  rw [Compute.runOn_read_bind] at hrest
  by_cases hstopped : (v.events[e]?).any (·.stopped) = true
  · rw [if_pos hstopped] at hrest
    cases hrest
    exact .inl ⟨.inl hstopped, rfl, rfl⟩
  · rw [if_neg hstopped, Compute.runOn_read_bind] at hrest
    cases hparent : (v.scope s).parent with
    | none =>
      rw [hparent] at hrest
      cases hrest
      exact .inl ⟨.inr (by rw [Tree.ancestry, hparent]), rfl, rfl⟩
    | some p =>
      rw [hparent] at hrest
      dsimp only at hrest
      by_cases hp : p < s
      · rw [if_pos hp] at hrest
        exact .inr ⟨Bool.eq_false_iff.2 hstopped, p, hp, rfl, hrest⟩
      · rw [if_neg hp] at hrest
        cases hrest
        exact .inl ⟨.inr (by rw [Tree.ancestry, hparent]; exact congrArg _ (if_neg hp)), rfl, rfl⟩

/-- The stops of an event on its way up: it comes to one scope after the other, no stop but the last
one leaves it stopped, and if that does not either then it came to the top. -/
structure Climbs (E : Engine κ σ) (e : EventId) (name : String) (args : List Value) (s : ScopeId)
    (way : List (Leg (Stop κ σ) κ σ)) (last : Leg (Stop κ σ) κ σ) (t u : Tree κ σ) : Prop where
  stops : Itinerary (E.Delivers e name args) (way ++ [last]) t u
  scopes : (way ++ [last]).map (·.of.scope) <+: t.ancestry s
  going : ∀ stop ∈ way, stop.after.asked e .stop = false
  arrived : last.after.asked e .stop = true ∨ (way ++ [last]).map (·.of.scope) = t.ancestry s

lemma exists_climbs (hepisode : ∀ e name args s, Leads Episode (E.deliver e name args s))
    {r : Except Error Unit} (hs : s < t.scopes.size)
    (h : runOn (E.climb e name args s) t = some (r, u)) :
    r = .ok () ∧ ∃ way last, E.Climbs e name args s way last t u := by
  induction s using Nat.strongRecOn generalizing t with
  | ind s ih =>
    obtain ⟨stop, v, rfl, hstop, hrest⟩ := climb_cases h
    have hlater : Tree.Later t v := (hepisode _ _ _ _ hstop.run).grows.later
    rcases hrest with ⟨hend, rfl, rfl⟩ | ⟨hgoing, p, hp, hparent, hclimb⟩
    · refine ⟨rfl, [], ⟨stop, t, u⟩, .next hstop (.done u), ?_, fun _ hmem => (nomatch hmem), ?_⟩
      · rw [t.ancestry_eq_cons]
        exact ⟨_, rfl⟩
      · rw [← hlater.ancestry_eq hs]
        exact hend.imp_right Eq.symm
    · have hsize : p < v.scopes.size := (hp.trans hs).trans_le hlater.scopes_le
      have hancestry : t.ancestry stop.scope = stop.scope :: v.ancestry p := by
        rw [← hlater.ancestry_eq hs, Tree.ancestry, hparent]
        exact congrArg _ (if_pos hp)
      obtain ⟨hr, way, last, hclimbs⟩ := ih p hp hsize hclimb
      refine ⟨hr, ⟨stop, t, v⟩ :: way, last, .next hstop hclimbs.stops, ?_,
        List.forall_mem_cons.2 ⟨hgoing, hclimbs.going⟩, ?_⟩
      · rw [hancestry]
        exact List.cons_prefix_cons.2 ⟨rfl, hclimbs.scopes⟩
      · rw [hancestry]
        exact hclimbs.arrived.imp_right (congrArg (stop.scope :: ·))

/-- On the way up nobody asks for a stop before the last scope, and if the event is stopped there
then because somebody asks for it there. -/
lemma Climbs.asks (hinvoke : ∀ procedure how, Leads (Suspends e) (E.invoke procedure how))
    {way : List (Leg (Stop κ σ) κ σ)} {last : Leg (Stop κ σ) κ σ}
    (h : E.Climbs e name args s way last t u) (ht : t.asked e .stop = false) :
    (∀ stop ∈ way, ∀ leg ∈ stop.of.hearers, ¬ leg.Raises e .stop) ∧
      (last.after.asked e .stop = true → ∃ leg ∈ last.of.hearers, leg.Raises e .stop) := by
  obtain ⟨v, hway, hlast⟩ := h.stops.of_append
  constructor
  · intro stop hstop leg hleg hraises
    have hafter := (between_of_delivers hinvoke (hway.step_of_mem hstop)
      (List.mem_filter.1 hleg).1).2.carries.asked hraises.2
    rw [h.going stop hstop] at hafter
    cases hafter
  · intro hstopped
    have hv : v.asked e .stop = false := by
      refine Bool.eq_false_iff.2 fun hasked => ?_
      obtain ⟨stop, hstop, -, hafter⟩ := hway.exists_turn (P := fun t => t.asked e .stop = true)
        (Bool.eq_false_iff.1 ht) hasked
      rw [h.going stop hstop] at hafter
      cases hafter
    cases hlast with
    | next hdelivers => exact (asked_iff_of_delivers hinvoke hdelivers hv).1 hstopped

/-! ## Ways down -/

/-- An event that is broadcast is delivered in the scope and its descendants. -/
lemma exists_stops_of_walk (hepisode : ∀ e name args s, Leads Episode (E.deliver e name args s))
    {d : ℕ} {r : Except Error Unit} (ht : t.Sound) (hs : s < t.scopes.size)
    (h : runOn (discard <| Routine.walk (fun s => do E.deliver e name args s; return {}) d s) t =
      some (r, u)) :
    r = .ok () ∧ (t.SameShape u → ∃ stops, Itinerary (E.Delivers e name args) stops t u ∧
      stops.map (·.of.scope) = t.descendants s) := by
  have hvisit : ∀ {s t r u}, runOn (do E.deliver e name args s; return {}) t = some (r, u) →
      r = .ok ({} : Findings) ∧ ∃ stop : Stop κ σ, stop.scope = s ∧
        E.Delivers e name args stop t u := by
    intro s t r u hrun
    rcases Compute.runOn_bind_cases hrun with ⟨error, hdelivered, -⟩ | ⟨_, v, hdelivered, hrest⟩
    · cases (exists_delivers hdelivered).1
    · cases hrest
      exact ⟨rfl, (exists_delivers hdelivered).2⟩
  have hgrows : ∀ s, Leads Tree.Grows (do E.deliver e name args s; return ({} : Findings)) :=
    fun s => Leads.bind (fun _ _ _ hrun => (hepisode e name args s hrun).grows) fun _ => .pure _
  obtain ⟨r', hwalk, rfl⟩ := Compute.runOn_discard_cases h
  obtain rfl := Routine.uneventful_walk (fun _ _ _ _ hrun => (hvisit hrun).1) d s hwalk
  refine ⟨rfl, fun hshape => ?_⟩
  obtain ⟨legs, hlegs, hitinerary⟩ :=
    Routine.exists_itinerary_of_full_walk hgrows ht hs hshape hwalk rfl
  obtain ⟨stops, hstops, hdelivers⟩ := hitinerary.refine (g := Stop.scope)
    fun _ _ _ ⟨_, hrun, _⟩ => (hvisit hrun).2
  exact ⟨stops, hdelivers, hstops.trans hlegs⟩

/-! ## Events on their way -/

/-- An event is made, travels, and is nowhere then. -/
lemma send_cases {target : ScopeId} {stoppable : Bool} {travel : EventId → Routine κ σ Unit}
    {r : Except Error EventId} (h : runOn (send target name stoppable travel) t = some (r, u)) :
    ∃ r' v, runOn (travel t.events.size) (t.made name target stoppable) = some (r', v) ∧
      (r' = .ok () →
        r = .ok t.events.size ∧ u = v.modifyEvent t.events.size (·.finish)) := by
  rw [send, Compute.runOn_alter_bind] at h
  rcases Compute.runOn_bind_cases h with ⟨error, htravel, -⟩ | ⟨_, v, htravel, hrest⟩
  · refine ⟨_, u, htravel, fun hok => ?_⟩
    cases hok
  · cases hrest
    exact ⟨_, v, htravel, fun _ => ⟨rfl, rfl⟩⟩

lemma runOn_answer_request (e : EventId) (wish : Wish) (t : Tree κ σ) :
    runOn (E.answer (wish.request e)) t = some (.ok (), t.modifyEvent e wish.grant) := by
  cases wish <;> rfl

lemma suspends_comesTo (hinvoke : ∀ procedure how, Leads (Suspends e) (E.invoke procedure how))
    {p p' : Program κ σ α} (h : E.ComesTo p t p' u) : Suspends e t u := by
  induction h with
  | here p t => exact refl_of (Suspends e) t
  | later hanswer _ ih => exact trans_of (Suspends e) (suspends_answer hinvoke _ hanswer) ih

end Engine

/-! ## Dispatches -/

namespace Host

/-- In the turn of a listener that hears an event, what is left of its program comes to be run on a
tree.  The engine that runs it has a lower limit. -/
def During (H : Host κ σ) (limit : ℕ) (e : EventId) (args : List Value) (leg : Leg ℕ κ σ)
    (p : Program κ σ Value) (v : Tree κ σ) : Prop :=
  ∃ x, leg.before.listeners[leg.of]? = some x ∧ x.active = true ∧
    (H.engine (limit - 1)).ComesTo (H.procedure x.procedure (.event e args))
      (leg.before.note (.called x.procedure (.event e args))) p v

/-- A listener that hears an event asks something of it that nobody had asked before: that comes
about in one of the requests of its program. -/
def Asks (H : Host κ σ) (limit : ℕ) (e : EventId) (args : List Value) (leg : Leg ℕ κ σ)
    (wish : Wish) : Prop :=
  ∃ (β : Type) (q : Request κ σ β) (next : Except Error β → Program κ σ Value)
    (v w : Tree κ σ) (a : Except Error β), H.During limit e args leg (.ask q next) v ∧
      runOn ((H.engine (limit - 1)).answer q) v = some (a, w) ∧
      ¬ v.asked e wish = true ∧ w.asked e wish = true

variable {H : Host κ σ} {limit : ℕ} {e : EventId} {name : String} {args : List Value}
  {s : ScopeId} {stoppable : Bool} {t u v : Tree κ σ} {stop : Stop κ σ} {leg : Leg ℕ κ σ}
  {stops : List (Leg (Stop κ σ) κ σ)} {p : Program κ σ Value}

/-- A request of the program is answered, and what is left then comes to be run. -/
lemma During.answer {β : Type} {q : Request κ σ β} {next : Except Error β → Program κ σ Value}
    {r : Except Error β} (h : H.During limit e args leg (.ask q next) v)
    (hanswer : runOn ((H.engine (limit - 1)).answer q) v = some (r, u)) :
    H.During limit e args leg (next r) u := by
  obtain ⟨x, hx, hactive, hcomes⟩ := h
  exact ⟨x, hx, hactive, hcomes.answer hanswer⟩

/-- In the turn of a listener the event waits up to every moment and from then on. -/
lemma During.holds (h : H.During limit e args leg p v)
    (hhears : (H.engine limit).Hears e args leg.of leg.before leg.after) :
    Holds e leg.before v ∧ Holds e v leg.after := by
  obtain ⟨x, hx, hactive, hcomes⟩ := h
  rcases Engine.hears_cases hhears with ⟨hmissed, -⟩ | ⟨x', r, w, hx', -, hrun, hrest, -⟩
  · simp [Tree.isListening, hx, hactive] at hmissed
  cases hx.symm.trans hx'
  cases limit with
  | zero => exact absurd hrun.symm (Option.some_ne_none _)
  | succ limit =>
    have hcalled : Holds e leg.before (leg.before.note (.called x.procedure (.event e args))) :=
      Tree.holds_of_getElem? rfl
    have hcome : Suspends e _ v := Engine.suspends_comesTo (H.suspends_invoke limit) hcomes
    have hgo : Suspends e v w :=
      Engine.suspends_execute (H.suspends_invoke limit) p (hcomes.run hrun)
    exact ⟨trans_of (Holds e) hcalled hcome.holds, (trans_of (Suspends e) hgo hrest).holds⟩

/-- What a listener asks for in its program is asked for after its turn. -/
lemma During.asked {wish : Wish} {next : Except Error Unit → Program κ σ Value} {x : Event}
    (h : H.During limit e args leg (.ask (wish.request e) next) v)
    (hhears : (H.engine limit).Hears e args leg.of leg.before leg.after)
    (hx : leg.before.events[e]? = some x) (hstop : wish = .stop → x.stoppable = true) :
    leg.after.asked e wish = true := by
  obtain ⟨y, hy, hwaits⟩ := (h.holds hhears).1 x hx
  obtain ⟨-, hafter⟩ := (h.answer (Engine.runOn_answer_request e wish v)).holds hhears
  refine hafter.carries.asked (Tree.asked_iff.2 ⟨_, Tree.getElem?_modifyEvent_self hy _, ?_⟩)
  exact Wish.asked_grant fun hwish => hwaits.stoppable.trans (hstop hwish)

/-- In a turn something comes to be asked of an event just when the listener asks it. -/
lemma asks_iff {wish : Wish}
    (hhears : (H.engine limit).Hears e args leg.of leg.before leg.after) :
    H.Asks limit e args leg wish ↔ leg.Raises e wish := by
  constructor
  · rintro ⟨β, q, next, v, w, a, hduring, hanswer, hv, hw⟩
    obtain ⟨hbefore, -⟩ := hduring.holds hhears
    obtain ⟨-, hafter⟩ := (hduring.answer hanswer).holds hhears
    exact ⟨Bool.eq_false_iff.2 fun hasked => hv (hbefore.carries.asked hasked),
      hafter.carries.asked hw⟩
  · rintro ⟨hbefore, hafter⟩
    rcases Engine.hears_cases hhears with ⟨-, hsame⟩ | ⟨x, r, v, hx, hactive, hrun, -, hevents⟩
    · rw [hsame, hbefore] at hafter
      cases hafter
    rw [Tree.asked, hevents] at hafter
    cases limit with
    | zero => exact absurd hrun.symm (Option.some_ne_none _)
    | succ limit =>
      have hnoted : ¬ (leg.before.note (.called x.procedure (.event e args))).asked e wish = true :=
        Bool.eq_false_iff.1 hbefore
      obtain ⟨β, q, next, v', w, a, hcomes, hasked⟩ :=
        Engine.exists_request_of_execute (P := fun t => t.asked e wish = true) hrun hnoted hafter
      exact ⟨β, q, next, v', w, a, ⟨x, hx, hactive, hcomes⟩, hasked⟩

/-- What becomes of an event that is made for a scope and goes its way from stop to stop. -/
structure Dispatches (H : Host κ σ) (limit : ℕ) (e : EventId) (name : String) (s : ScopeId)
    (args : List Value) (stoppable : Bool) (stops : List (Leg (Stop κ σ) κ σ)) (t u : Tree κ σ) :
    Prop where
  /-- The engine makes the event, delivers it at one stop after the other, each of which begins with
  the tree that the one before has left, and then the event has arrived. -/
  travels : ∃ v, Itinerary ((H.engine limit).Delivers e name args) stops
    (t.made name s stoppable) v ∧ u = v.modifyEvent e (·.finish)
  /-- At each stop the listeners have turns that are registered when the event comes there, in the
  order of their registration, and all of them are there still at this moment. -/
  registered : ∀ stop ∈ stops,
    stop.of.legs.map Leg.of = stop.before.listenersFor stop.of.scope name ∧
    (stop.of.legs.map Leg.of).Pairwise (· < ·) ∧
    ∀ leg ∈ stop.of.legs, stop.before.isListening leg.of = true
  /-- Those are called that are still there in their turn, and nobody else. -/
  heard : u.hearings e = (stops.flatMap (·.of.hearings e args)).reverse ++ t.hearings e
  /-- Nobody is called twice. -/
  once : (stops.flatMap fun stop => stop.of.hearers.map Leg.of).Nodup
  /-- Whenever a listener looks in its turn, the event is in the scope that is visited. -/
  current : ∀ stop ∈ stops, ∀ leg ∈ stop.of.legs, ∀ p v, H.During limit e args leg p v →
    ∃ x, v.events[e]? = some x ∧ x.current = some stop.of.scope
  /-- What a listener asks of the event in its program is asked for after its turn. -/
  granted : ∀ wish : Wish, (wish = .stop → stoppable = true) →
    ∀ stop ∈ stops, ∀ leg ∈ stop.of.legs, ∀ next v,
      H.During limit e args leg (.ask (wish.request e) next) v → leg.after.asked e wish = true
  /-- In the end the event is nowhere. -/
  finished : ∃ x, u.events[e]? = some x ∧ x.current = none
  /-- It is prevented in the end just when one of those who were called asked for that. -/
  prevented : u.asked e .prevent = true ↔
    ∃ stop ∈ stops, ∃ leg ∈ stop.of.hearers, H.Asks limit e args leg .prevent

section Dispatched

variable (hstops : Itinerary ((H.engine limit).Delivers t.events.size name args) stops
  (t.made name s stoppable) v)

include hstops

lemma delivers_of_stops {stop : Leg (Stop κ σ) κ σ} (hstop : stop ∈ stops) :
    (H.engine limit).Delivers t.events.size name args stop.of stop.before stop.after :=
  hstops.step_of_mem hstop

/-- What goes on before a stop and from then on is an episode. -/
lemma episodes_of_stops {stop : Leg (Stop κ σ) κ σ} (hstop : stop ∈ stops) :
    Episode t stop.before ∧ Episode stop.before v := by
  have hepisode : ∀ stop t' u, (H.engine limit).Delivers t.events.size name args stop t' u →
      Episode t' u := fun _ _ _ h => (H.heeds_episode limit).deliver _ _ _ _ h.run
  have hmade : Episode t (t.made name s stoppable) := (Tree.Shift.edit (.events t _)).episode
  obtain ⟨hbefore, hafter⟩ := hstops.between hepisode hstop
  exact ⟨trans_of Episode hmade hbefore,
    trans_of Episode (hepisode _ _ _ (delivers_of_stops hstops hstop)) hafter⟩

/-- At a stop the event is what it was when it was made, apart from what was asked of it. -/
lemma event_of_stops {stop : Leg (Stop κ σ) κ σ} (hstop : stop ∈ stops) :
    (∃ x, stop.before.events[t.events.size]? = some x ∧ x.stoppable = stoppable) ∧
      Tree.Carries t.events.size stop.after v := by
  obtain ⟨hbefore, hafter⟩ :=
    hstops.between (fun _ _ _ => Engine.carries_of_delivers (H.suspends_invoke limit)) hstop
  obtain ⟨x, hx, hwaits⟩ := hbefore _ (t.getElem?_made name s stoppable)
  exact ⟨⟨x, hx, hwaits.stoppable⟩, hafter⟩

lemma registered_of_stops (hattuned : t.Attuned) {stop : Leg (Stop κ σ) κ σ}
    (hstop : stop ∈ stops) :
    stop.of.legs.map Leg.of = stop.before.listenersFor stop.of.scope name ∧
      (stop.of.legs.map Leg.of).Pairwise (· < ·) ∧
      ∀ leg ∈ stop.of.legs, stop.before.Houses stop.of.scope leg.of ∧
        stop.before.isListening leg.of = true := by
  have hlisteners := (delivers_of_stops hstops hstop).listeners
  have hbefore : stop.before.Attuned :=
    Tree.rearranges_attunes.episode (episodes_of_stops hstops hstop).1 hattuned
  refine ⟨hlisteners, ?_, fun leg hleg => ?_⟩
  · rw [hlisteners]
    exact (hbefore _).sorted.sublist List.filter_sublist
  · have hlisted : leg.of ∈ stop.before.listenersFor stop.of.scope name := by
      rw [← hlisteners]
      exact List.mem_map_of_mem hleg
    have hmem := (List.mem_filter.1 hlisted).1
    exact ⟨hbefore.housed hmem, hbefore.isListening hmem⟩

lemma heard_of_stops : v.hearings t.events.size =
    (stops.flatMap (·.of.hearings t.events.size args)).reverse ++ t.hearings t.events.size := by
  have hinvoke := fun procedure how => H.suspends_invoke (e := t.events.size) limit procedure how
  refine hstops.tally (g := fun u => u.hearings t.events.size)
    (P := fun u => t.events.size < u.events.size) ?_
    (fun _ _ _ he h => (Engine.carries_of_delivers hinvoke h).lt_size he)
    fun _ _ _ he h => Engine.hearings_of_delivers hinvoke he h
  simp [Tree.made]

/-- A listener is one of a single scope, so if no scope is visited twice nobody is called twice. -/
lemma once_of_stops (hattuned : t.Attuned) (hscopes : (stops.map (·.of.scope)).Nodup) :
    (stops.flatMap fun stop => stop.of.hearers.map Leg.of).Nodup := by
  have hhouses : ∀ stop ∈ stops, ∀ l ∈ stop.of.hearers.map Leg.of,
      v.Houses stop.of.scope l := by
    intro stop hstop l hl
    obtain ⟨leg, hleg, rfl⟩ := List.mem_map.1 hl
    have hturn := (List.mem_filter.1 hleg).1
    obtain ⟨hhoused, -⟩ := (registered_of_stops hstops hattuned hstop).2.2 leg hturn
    exact (Tree.rearranges_tidies.episode (episodes_of_stops hstops hstop).2).houses hhoused
  refine List.nodup_flatMap.2 ⟨fun stop hstop => ?_, ?_⟩
  · have hsorted := (registered_of_stops hstops hattuned hstop).2.1
    exact (hsorted.sublist (List.filter_sublist.map Leg.of)).imp fun hlt => ne_of_lt hlt
  · rw [List.Nodup, List.pairwise_map] at hscopes
    refine hscopes.imp_of_mem fun {stop stop'} hstop hstop' hne l hl hl' => hne ?_
    obtain ⟨x, hx, hscope⟩ := hhouses stop hstop l hl
    obtain ⟨x', hx', hscope'⟩ := hhouses stop' hstop' l hl'
    cases hx.symm.trans hx'
    exact hscope.symm.trans hscope'

/-- Somebody asks at a stop just when something comes to be asked in somebody's turn. -/
lemma asks_iff_of_stops (wish : Wish) {stop : Leg (Stop κ σ) κ σ} (hstop : stop ∈ stops) :
    (∃ leg ∈ stop.of.hearers, H.Asks limit t.events.size args leg wish) ↔
      ∃ leg ∈ stop.of.hearers, leg.Raises t.events.size wish :=
  exists_congr fun _ => and_congr_right fun hleg =>
    asks_iff ((delivers_of_stops hstops hstop).turns.step_of_mem (List.mem_filter.1 hleg).1)

/-- Whatever is asked of the event in the end somebody has asked who was called. -/
lemma asked_iff_of_stops (wish : Wish) : v.asked t.events.size wish = true ↔
    ∃ stop ∈ stops, ∃ leg ∈ stop.of.hearers, H.Asks limit t.events.size args leg wish := by
  rw [exists_congr fun stop => and_congr_right fun hstop => asks_iff_of_stops hstops _ hstop]
  have hinvoke := fun procedure how => H.suspends_invoke (e := t.events.size) limit procedure how
  constructor
  · intro hasked
    obtain ⟨stop, hstop, hbefore, hafter⟩ := hstops.exists_turn
      (P := fun u => u.asked t.events.size wish = true)
      (Bool.eq_false_iff.1 (t.asked_made name s stoppable wish)) hasked
    exact ⟨stop, hstop, (Engine.asked_iff_of_delivers hinvoke (delivers_of_stops hstops hstop)
      (Bool.eq_false_iff.2 hbefore)).1 hafter⟩
  · rintro ⟨stop, hstop, leg, hleg, -, hafter⟩
    have hturn := Engine.between_of_delivers hinvoke (delivers_of_stops hstops hstop)
      (List.mem_filter.1 hleg).1
    exact (event_of_stops hstops hstop).2.asked (hturn.2.carries.asked hafter)

/-- An event that went from stop to stop. -/
lemma dispatches_of_stops (hattuned : t.Attuned) (hscopes : (stops.map (·.of.scope)).Nodup) :
    H.Dispatches limit t.events.size name s args stoppable stops t
      (v.modifyEvent t.events.size (·.finish)) where
  travels := ⟨v, hstops, rfl⟩
  registered stop hstop := by
    obtain ⟨hlisteners, hsorted, hthere⟩ := registered_of_stops hstops hattuned hstop
    exact ⟨hlisteners, hsorted, fun leg hleg => (hthere leg hleg).2⟩
  heard := show v.hearings _ = _ from heard_of_stops hstops
  once := once_of_stops hstops hattuned hscopes
  current stop hstop leg hleg p w hduring := by
    have hdelivers := delivers_of_stops hstops hstop
    obtain ⟨⟨x, hx, -⟩, -⟩ := event_of_stops hstops hstop
    obtain ⟨y, hy, hcurrent⟩ :=
      Engine.current_of_delivers (H.suspends_invoke limit) hx hdelivers hleg
    obtain ⟨z, hz, hwaits⟩ := (hduring.holds (hdelivers.turns.step_of_mem hleg)).1 y hy
    exact ⟨z, hz, hwaits.current.trans hcurrent⟩
  granted wish hwish stop hstop leg hleg next w hduring := by
    have hdelivers := delivers_of_stops hstops hstop
    obtain ⟨⟨x, hx, hstoppable⟩, -⟩ := event_of_stops hstops hstop
    obtain ⟨y, hy, hwaits⟩ := (Engine.between_of_delivers (H.suspends_invoke limit) hdelivers
      hleg).1 _ (Tree.getElem?_modifyEvent_self hx _)
    refine hduring.asked (hdelivers.turns.step_of_mem hleg) hy fun h => ?_
    exact hwaits.stoppable.trans (hstoppable.trans (hwish h))
  finished := by
    have hmade : t.events.size < (t.made name s stoppable).events.size := by simp [Tree.made]
    have hlt : t.events.size < v.events.size :=
      (hstops.related fun _ _ _ =>
        Engine.carries_of_delivers (H.suspends_invoke limit)).lt_size hmade
    exact ⟨_, Tree.getElem?_modifyEvent_self (Array.getElem?_eq_getElem hlt) _, rfl⟩
  prevented := by
    have hfinish : (v.modifyEvent t.events.size (·.finish)).asked t.events.size .prevent =
        v.asked t.events.size .prevent := Tree.asked_modifyEvent fun _ => rfl
    rw [hfinish]
    exact asked_iff_of_stops hstops .prevent

end Dispatched

/-- An emitted event comes to its scope and then to one ancestor after the other, up to the first
scope in which somebody who is called asks for a stop, or to the last one if nobody does.  A
broadcast that leaves the tree of scopes as it was comes to its scope and all descendants, each
parent before its children.  Wherever they come, those hear them who were there when they came and
are still there in their turn (`Host.Dispatches`). -/
theorem event_delivery (H : Host κ σ) {limit : ℕ} {s : ScopeId} {name : String} {args : List Value}
    {t : Tree κ σ} (ht : t.Sound) (hattuned : t.Attuned) (hs : s < t.scopes.size) :
    (∀ {r u}, runOn ((H.engine limit).emit s name args) t = some (r, u) →
      r = .ok t.events.size ∧ ∃ way last,
        H.Dispatches limit t.events.size name s args true (way ++ [last]) t u ∧
        (way ++ [last]).map (·.of.scope) <+: t.ancestry s ∧
        (∀ stop ∈ way, ∀ leg ∈ stop.of.hearers, ¬ H.Asks limit t.events.size args leg .stop) ∧
        ((∃ leg ∈ last.of.hearers, H.Asks limit t.events.size args leg .stop) ∨
          (way ++ [last]).map (·.of.scope) = t.ancestry s)) ∧
    ∀ {r u}, runOn ((H.engine limit).broadcast s name args) t = some (r, u) → t.SameShape u →
      r = .ok t.events.size ∧ ∃ stops,
        H.Dispatches limit t.events.size name s args false stops t u ∧
        stops.map (·.of.scope) = t.descendants s ∧ (∀ b, b ∈ t.descendants s ↔ t.Under s b) ∧
        ∀ p c, t.Under s p → c ∈ (t.scope p).children → [p, c].Sublist (t.descendants s) := by
  have hepisode := (H.heeds_episode limit).deliver
  refine ⟨fun {r u} hrun => ?_, fun {r u} hrun hshape => ?_⟩
  · obtain ⟨r', v, hclimb, hend⟩ := Engine.send_cases hrun
    obtain ⟨rfl, way, last, hclimbs⟩ :=
      Engine.exists_climbs hepisode (t := t.made name s true) hs hclimb
    obtain ⟨rfl, rfl⟩ := hend rfl
    have hancestry : (t.made name s true).ancestry s = t.ancestry s :=
      Tree.Later.ancestry_eq (u := t.made name s true) (.of_frame rfl) hs
    have hscopes := hclimbs.scopes
    have harrived := hclimbs.arrived
    rw [hancestry] at hscopes harrived
    obtain ⟨hgoing, hstopped⟩ :=
      hclimbs.asks (H.suspends_invoke limit) (t.asked_made name s true .stop)
    have hasks : ∀ stop ∈ way ++ [last], _ := fun _ hstop =>
      asks_iff_of_stops hclimbs.stops .stop hstop
    refine ⟨rfl, way, last, dispatches_of_stops hclimbs.stops hattuned
      (hscopes.sublist.nodup (t.nodup_ancestry s)), hscopes, fun stop hstop leg hleg hasked => ?_,
      harrived.imp_left fun hasked => ?_⟩
    · obtain ⟨leg', hleg', hraises⟩ :=
        (hasks stop (List.mem_append_left [last] hstop)).1 ⟨leg, hleg, hasked⟩
      exact hgoing stop hstop leg' hleg' hraises
    · exact (hasks last (List.mem_append_right way (List.mem_singleton_self last))).2
        (hstopped hasked)
  · obtain ⟨r', v, hwalk, hend⟩ := Engine.send_cases hrun
    have hmade : (t.made name s false).frame = t.frame := rfl
    obtain ⟨rfl, hstops⟩ := Engine.exists_stops_of_walk hepisode (t := t.made name s false)
      (ht.of_frame hmade) hs hwalk
    obtain ⟨rfl, rfl⟩ := hend rfl
    obtain ⟨stops, hdelivers, hscopes⟩ := hstops hshape
    have hsame : t.SameShape (t.made name s false) := .of_scopes rfl
    rw [hsame.descendants_eq] at hscopes
    refine ⟨rfl, stops, dispatches_of_stops hdelivers hattuned ?_, hscopes,
      fun b => ht.mem_descendants hs, fun p c hp hc => ht.parent_before_child hs hp hc⟩
    rw [hscopes]
    exact ht.nodup_descendants s

end Host

/-! ## A host whose listeners get in each other's way -/

/-- The procedures of a host that has news. -/
inductive Crier where
  | censor
  | halt
  | hear

/-- A host with a listener that removes the one behind it and itself, listens in its own scope and
in the next ones, sends another event and fails, and with one that asks for everything. -/
def crier : Host Crier Unit where
  library := ⟨fun _ _ _ => .endless, fun _ _ => .endless⟩
  report := fun _ host => host
  procedure
    | .censor, _ => do
      Program.request (.deregister (.listener 1))
      Program.request (.deregister (.listener 0))
      discard <| Program.request (.listen 2 "news" .hear)
      discard <| Program.request (.listen 1 "news" .hear)
      discard <| Program.request (.listen 3 "news" .hear)
      discard <| Program.request (.emit 2 "aside" [])
      .done (.error (.callback "no news"))
    | .halt, .event e _ => do
      Program.request (.stop e)
      Program.request (.prevent e)
      return .undefined
    | _, _ => return .undefined

/-- Scopes one below the other, and listeners in all of them. -/
def crierSetup : Program Crier Unit Unit := do
  let a ← Program.request (.newChild rootId false rootId)
  let b ← Program.request (.newChild a false a)
  let c ← Program.request (.newChild b false b)
  discard <| Program.request (.listen b "news" .censor)
  discard <| Program.request (.listen b "news" .hear)
  discard <| Program.request (.listen b "news" .hear)
  discard <| Program.request (.listen a "news" .halt)
  discard <| Program.request (.listen rootId "news" .hear)
  discard <| Program.request (.listen c "news" .halt)
  discard <| Program.request (.listen b "aside" .hear)

/-- The news of that host, up and down from the same scope. -/
lemma crier_run : ∃ t, crier.run 9 crierSetup
      (.plant ⟨.empty, ()⟩ ⟨.empty, .empty⟩ {} false) = some (.ok (), t) ∧
    t.scopes.size = 4 ∧ t.events.size = 0 ∧ t.hearings 0 = [] ∧ t.descendants 2 = [2, 3] ∧
    (∃ u, runOn ((crier.engine 9).emit 2 "news" []) t = some (.ok 0, u) ∧
      (u.hearings 0).map Prod.fst = [.hear, .halt, .hear, .censor]) ∧
    ∃ u, runOn ((crier.engine 9).broadcast 2 "news" []) t = some (.ok 0, u) ∧ t.SameShape u ∧
      (u.hearings 0).map Prod.fst = [.hear, .halt, .hear, .censor] := by
  generalize hx : crier.run 9 crierSetup _ = x
  cbv at hx
  subst hx
  refine ⟨_, rfl, rfl, rfl, rfl, rfl, ?_, ?_⟩
  · generalize hy : runOn _ _ = y
    cbv at hy
    subst hy
    exact ⟨_, rfl, rfl⟩
  · generalize hy : runOn _ _ = y
    cbv at hy
    subst hy
    refine ⟨_, rfl, ⟨rfl, fun b => ?_⟩, rfl⟩
    obtain _ | _ | _ | _ | b := b <;> rfl

/-- On either way those hear the news who were there when it came and were not removed before their
turn: neither the one that was removed nor the one that was registered where the news was already,
but the one that was registered where it came next. -/
theorem crier_delivers : ∃ t u v : Tree Crier Unit,
    runOn ((crier.engine 9).emit 2 "news" []) t = some (.ok 0, u) ∧
    runOn ((crier.engine 9).broadcast 2 "news" []) t = some (.ok 0, v) ∧
    (∃ stops, crier.Dispatches 9 0 "news" 2 [] true stops t u ∧
      stops.map (·.of.scope) <+: t.ancestry 2 ∧
      (stops.flatMap (·.of.hearings 0 [])).map Prod.fst = [.censor, .hear, .halt, .hear]) ∧
    ∃ stops, crier.Dispatches 9 0 "news" 2 [] false stops t v ∧ stops.map (·.of.scope) = [2, 3] ∧
      (stops.flatMap (·.of.hearings 0 [])).map Prod.fst = [.censor, .hear, .halt, .hear] := by
  obtain ⟨t, hsetup, hsize, hevents, hquiet, hdescendants, ⟨u, hemit, hup⟩, v, hbroadcast, hshape,
    hdown⟩ := crier_run
  have hsound : t.Sound := Host.sound_of_run hsetup (Tree.sound_plant ..)
  have hattuned : t.Attuned := Host.attuned_of_run hsetup (Tree.attuned_plant _ _ _ _)
  have hscope : 2 < t.scopes.size := hsize ▸ by decide
  obtain ⟨hemits, hbroadcasts⟩ := crier.event_delivery hsound hattuned hscope
  obtain ⟨-, way, last, hclimbed, hway, -⟩ := hemits hemit
  obtain ⟨-, stops, hwalked, hstops, -⟩ := hbroadcasts hbroadcast hshape
  rw [hevents] at hclimbed hwalked
  refine ⟨t, u, v, hemit, hbroadcast, ⟨way ++ [last], hclimbed, hway, ?_⟩,
    stops, hwalked, hstops.trans hdescendants, ?_⟩
  · rw [hclimbed.heard, hquiet, List.append_nil, List.map_reverse] at hup
    exact List.reverse_eq_iff.1 hup
  · rw [hwalked.heard, hquiet, List.append_nil, List.map_reverse] at hdown
    exact List.reverse_eq_iff.1 hdown

end DataBinding
