import DataBinding.Proofs.Turns

/-!
# Itineraries

A walk goes from scope to scope, and in each scope something has a turn after the other: the
watchers that a pass comes to, the listeners that hear an event.  An itinerary (`Itinerary`) is the
list of such turns along a run, each with the tree that it begins with and the one it leaves.

A walk that was not ended is an itinerary of the scope and its descendants, if the scopes have the
children in the end that they had in the beginning (`Routine.exists_itinerary_of_full_walk`).  No
scope has lost a child in between then, nor gained one (`Tree.SameShape.between`).
-/

namespace DataBinding

open Compute (Leads runOn)

variable {κ σ ι ι' β : Type}

/-! ## Turns one after the other -/

/-- A leg of an itinerary: whose turn it is, and the trees at its beginning and at its end. -/
structure Leg (ι κ σ : Type) where
  of : ι
  before : Tree κ σ
  after : Tree κ σ

/-- A stop on the way through a tree: a scope, and the turns that come there. -/
structure Stop (κ σ : Type) where
  scope : ScopeId
  legs : List (Leg ℕ κ σ)

/-- Turns one after the other, where `step` says what a turn makes of a tree. -/
inductive Itinerary (step : ι → Tree κ σ → Tree κ σ → Prop) :
    List (Leg ι κ σ) → Tree κ σ → Tree κ σ → Prop
  | done (t : Tree κ σ) : Itinerary step [] t t
  | next {i : ι} {t u v : Tree κ σ} {rest : List (Leg ι κ σ)} (hstep : step i t v)
    (hrest : Itinerary step rest v u) : Itinerary step (⟨i, t, v⟩ :: rest) t u

namespace Itinerary

variable {step : ι → Tree κ σ → Tree κ σ → Prop} {step' : ι' → Tree κ σ → Tree κ σ → Prop}
  {R : Tree κ σ → Tree κ σ → Prop} {P : Tree κ σ → Prop} {t u v : Tree κ σ}
  {l l' : List (Leg ι κ σ)} {leg : Leg ι κ σ}

lemma append (h : Itinerary step l t v) (h' : Itinerary step l' v u) :
    Itinerary step (l ++ l') t u := by
  induction h with
  | done => exact h'
  | next hstep _ ih => exact .next hstep (ih h')

lemma step_of_mem (h : Itinerary step l t u) (hleg : leg ∈ l) :
    step leg.of leg.before leg.after := by
  induction h with
  | done => cases hleg
  | next hstep _ ih =>
    rcases List.mem_cons.1 hleg with rfl | hleg
    · exact hstep
    · exact ih hleg

/-- What is respected by every turn is respected from the beginning on. -/
lemma related [IsPreorder (Tree κ σ) R] (h : Itinerary step l t u)
    (hR : ∀ i t v, step i t v → R t v) : R t u := by
  induction h with
  | done t => exact refl_of R t
  | next hstep _ ih => exact trans_of R (hR _ _ _ hstep) ih

/-- A turn comes somewhere between the beginning and the end. -/
lemma between [IsPreorder (Tree κ σ) R] (h : Itinerary step l t u)
    (hR : ∀ i t v, step i t v → R t v) (hleg : leg ∈ l) : R t leg.before ∧ R leg.after u := by
  induction h with
  | done => cases hleg
  | next hstep hrest ih =>
    rcases List.mem_cons.1 hleg with rfl | hleg
    · exact ⟨refl_of R _, hrest.related hR⟩
    · obtain ⟨hbefore, hafter⟩ := ih hleg
      exact ⟨trans_of R (hR _ _ _ hstep) hbefore, hafter⟩

/-- Turns one after the other can be told in two parts. -/
lemma of_append (h : Itinerary step (l ++ l') t u) :
    ∃ v, Itinerary step l t v ∧ Itinerary step l' v u := by
  induction l generalizing t with
  | nil => exact ⟨t, .done t, h⟩
  | cons leg l ih =>
    cases h with
    | next hstep hrest =>
      obtain ⟨v, hfirst, hlast⟩ := ih hrest
      exact ⟨v, .next hstep hfirst, hlast⟩

/-- What comes to hold on the way comes to hold in one of the turns. -/
lemma exists_turn (h : Itinerary step l t u) (ht : ¬ P t) (hu : P u) :
    ∃ leg ∈ l, ¬ P leg.before ∧ P leg.after := by
  induction h with
  | done => exact absurd hu ht
  | @next i t u v rest hstep hrest ih =>
    by_cases hv : P v
    · exact ⟨_, .head _, ht, hv⟩
    · obtain ⟨leg, hleg, hturn⟩ := ih hv hu
      exact ⟨leg, .tail _ hleg, hturn⟩

/-- Turns can be told in more detail one by one. -/
lemma refine {g : ι' → ι} (h : Itinerary step l t u)
    (hdetail : ∀ i t v, step i t v → ∃ j, g j = i ∧ step' j t v) :
    ∃ l', l'.map (g ·.of) = l.map (·.of) ∧ Itinerary step' l' t u := by
  induction h with
  | done t => exact ⟨[], rfl, .done _⟩
  | next hstep _ ih =>
    obtain ⟨j, hj, hstep'⟩ := hdetail _ _ _ hstep
    obtain ⟨l', hl', hrest'⟩ := ih
    exact ⟨_ :: l', congrArg₂ List.cons hj hl', .next hstep' hrest'⟩

/-- What each turn puts before a list, all turns put before it, the last one first. -/
lemma tally {g : Tree κ σ → List β} {x : Leg ι κ σ → List β} (h : Itinerary step l t u) (ht : P t)
    (hP : ∀ i t v, P t → step i t v → P v)
    (hx : ∀ i t v, P t → step i t v → g v = (x ⟨i, t, v⟩).reverse ++ g t) :
    g u = (l.flatMap x).reverse ++ g t := by
  induction h with
  | done => rfl
  | next hstep _ ih =>
    rw [ih (hP _ _ _ ht hstep), hx _ _ _ ht hstep, List.flatMap_cons, List.reverse_append,
      List.append_assoc]

/-- Where a turn puts one thing before a list or nothing, those turns count that put something. -/
lemma tally_of_ite {g : Tree κ σ → List β} {p : Leg ι κ σ → Bool} {y : Leg ι κ σ → β}
    (h : Itinerary step l t u) (ht : P t) (hP : ∀ i t v, P t → step i t v → P v)
    (hy : ∀ i t v, P t → step i t v →
      g v = (if p ⟨i, t, v⟩ then [y ⟨i, t, v⟩] else []) ++ g t) :
    g u = ((l.filter p).map y).reverse ++ g t := by
  have hfilter : (l.filter p).map y = l.flatMap fun leg => if p leg then [y leg] else [] := by
    clear h
    induction l with
    | nil => rfl
    | cons leg l ih =>
      rw [List.filter_cons, List.flatMap_cons, ← ih]
      split <;> rfl
  rw [hfilter]
  refine h.tally ht hP fun i t v ht hstep => ?_
  rw [hy i t v ht hstep]
  split <;> rfl

end Itinerary

/-! ## Trees of one shape -/

namespace Tree

variable {t u v : Tree κ σ} {b s : ScopeId} {d : ℕ}

/-- There are as many scopes in both trees, and each has the same children. -/
def SameShape (t u : Tree κ σ) : Prop :=
  u.scopes.size = t.scopes.size ∧ ∀ b, (u.scope b).children = (t.scope b).children

namespace SameShape

lemma of_scopes (h : u.scopes = t.scopes) : t.SameShape u :=
  ⟨congrArg Array.size h, fun b => by rw [scope, scope, h]⟩

lemma trans (htv : t.SameShape v) (hvu : v.SameShape u) : t.SameShape u :=
  ⟨hvu.1.trans htv.1, fun b => (hvu.2 b).trans (htv.2 b)⟩

lemma symm (h : t.SameShape u) : u.SameShape t := ⟨h.1.symm, fun b => (h.2 b).symm⟩

/-- A tree between two of one shape has that shape. -/
lemma between (h : t.SameShape u) (ht : t.Sound) (htv : Grows t v) (hvu : Grows v u) :
    t.SameShape v := by
  have hv := htv.sound ht
  have hu := hvu.sound hv
  have hsize : v.scopes.size = t.scopes.size :=
    le_antisymm (hvu.later.scopes_le.trans h.1.le) htv.later.scopes_le
  refine ⟨hsize, fun b => ?_⟩
  rcases lt_or_ge b t.scopes.size with hb | hb
  · have hfirst := (htv.later.scope b hb).children
    have hlast := (hvu.later.scope b (hsize ▸ hb)).children
    rw [← hsize, hv.filter_children] at hfirst
    rw [hsize, ← h.1, hu.filter_children, h.2] at hlast
    exact hfirst.antisymm hlast
  · rw [scope_of_size_le hb, scope_of_size_le (hsize ▸ hb)]

lemma descendantsWithin_eq (h : t.SameShape u) (d : ℕ) :
    u.descendantsWithin d = t.descendantsWithin d := by
  induction d with
  | zero => rfl
  | succ d ih =>
    funext s
    simp only [descendantsWithin, ih, h.2]

lemma descendants_eq (h : t.SameShape u) (s : ScopeId) : u.descendants s = t.descendants s := by
  rw [descendants, h.1, h.descendantsWithin_eq, descendants]

lemma fits (h : t.SameShape u) (hfits : t.Fits d s) : u.Fits d s := by
  induction hfits with
  | level _ ih => exact .level fun c hc => ih c (h.2 _ ▸ hc)

end SameShape

end Tree

/-! ## Walks -/

/-- A visit that does not end a walk leads from the first tree to the second. -/
def Routine.Goes (visit : ι → Routine κ σ Findings) (i : ι) (t u : Tree κ σ) : Prop :=
  ∃ f, runOn (visit i) t = some (.ok f, u) ∧ f.ended = false

namespace Routine

open DataBinding.Tree (Grows SameShape)

variable {t u : Tree κ σ} {s : ScopeId} {d : ℕ} {f : Findings}

/-- Of two visits one after another that do not end a walk neither does. -/
lemma goes_of_andThen {first second : Routine κ σ Findings}
    (h : runOn (first.andThen second) t = some (.ok f, u)) (hf : f.ended = false) :
    ∃ a v b, runOn first t = some (.ok a, v) ∧ a.ended = false ∧
      runOn second v = some (.ok b, u) ∧ b.ended = false := by
  rcases runOn_andThen_cases h with ⟨e, -, hr⟩ | ⟨a, -, ha, hr⟩ | ⟨a, v, r, hrun, ha, hrun', hr⟩
  · cases hr
  · cases hr
    cases hf.symm.trans ha
  · cases r with
    | error e => cases hr
    | ok b =>
      cases hr
      exact ⟨a, v, b, hrun, ha, hrun', hf⟩

/-- Visits in order that did not end a walk each had their turn. -/
lemma exists_itinerary_of_inOrder {visit : ι → Routine κ σ Findings} {l : List ι}
    (h : runOn (inOrder visit l) t = some (.ok f, u)) (hf : f.ended = false) :
    ∃ legs, legs.map Leg.of = l ∧ Itinerary (Goes visit) legs t u := by
  induction l generalizing t f with
  | nil =>
    cases h
    exact ⟨[], rfl, .done _⟩
  | cons i l ih =>
    obtain ⟨a, v, b, hfirst, ha, hrest, hb⟩ := goes_of_andThen h hf
    obtain ⟨legs, rfl, hlegs⟩ := ih hrest hb
    exact ⟨⟨i, t, v⟩ :: legs, rfl, .next ⟨a, hfirst, ha⟩ hlegs⟩

/-- A visit that never fails and finds nothing. -/
def Uneventful (m : Routine κ σ Findings) : Prop :=
  ∀ ⦃t r u⦄, runOn m t = some (r, u) → r = .ok {}

lemma uneventful_andThen {first second : Routine κ σ Findings} (h₁ : Uneventful first)
    (h₂ : Uneventful second) : Uneventful (first.andThen second) := by
  intro t r u h
  rcases runOn_andThen_cases h with ⟨e, hrun, -⟩ | ⟨a, hrun, ha, -⟩ | ⟨a, v, r, hrun, -, hrun', rfl⟩
  · cases h₁ hrun
  · cases h₁ hrun
    cases ha
  · cases h₁ hrun
    cases h₂ hrun'
    rfl

lemma uneventful_inOrder {visit : ι → Routine κ σ Findings} (h : ∀ i, Uneventful (visit i))
    (l : List ι) : Uneventful (inOrder visit l) := by
  induction l with
  | nil =>
    intro t r u h
    cases h
    rfl
  | cons i l ih => exact uneventful_andThen (h i) ih

lemma uneventful_walk {visit : ScopeId → Routine κ σ Findings} (h : ∀ s, Uneventful (visit s))
    (d : ℕ) (s : ScopeId) : Uneventful (walk visit d s) := by
  induction d generalizing s with
  | zero => exact fun _ _ _ h => (nomatch h)
  | succ d ih =>
    refine uneventful_andThen (h s) fun t r u hrun => ?_
    rw [Compute.runOn_read_bind] at hrun
    exact uneventful_inOrder ih _ hrun

variable {visit : ScopeId → Routine κ σ Findings} (hvisit : ∀ s, Leads Grows (visit s))

include hvisit

lemma exists_itinerary_of_walkAll {cs : List ScopeId}
    (hwalk : ∀ {t u : Tree κ σ} {s f}, t.Sound → t.SameShape u →
      runOn (walk visit d s) t = some (.ok f, u) → f.ended = false →
      t.Fits d s ∧ ∃ legs, legs.map Leg.of = t.descendantsWithin d s ∧
        Itinerary (Goes visit) legs t u)
    (ht : t.Sound) (hshape : t.SameShape u)
    (h : runOn (inOrder (walk visit d) cs) t = some (.ok f, u)) (hf : f.ended = false) :
    (∀ c ∈ cs, t.Fits d c) ∧ ∃ legs, legs.map Leg.of = cs.flatMap (t.descendantsWithin d) ∧
      Itinerary (Goes visit) legs t u := by
  induction cs generalizing t f with
  | nil =>
    cases h
    exact ⟨fun _ hc => (nomatch hc), [], rfl, .done _⟩
  | cons c cs ih =>
    obtain ⟨a, v, b, hfirst, ha, hrest, hb⟩ := goes_of_andThen h hf
    have htv := leads_walk hvisit d c hfirst
    have hvu := leads_inOrder (leads_walk hvisit d) cs hrest
    have hmid := hshape.between ht htv hvu
    obtain ⟨hfits, legs, hlegs, hitinerary⟩ := hwalk ht hmid hfirst ha
    obtain ⟨hfits', legs', hlegs', hitinerary'⟩ :=
      ih (htv.sound ht) (hmid.symm.trans hshape) hrest hb
    refine ⟨List.forall_mem_cons.2 ⟨hfits, fun c' hc' => hmid.symm.fits (hfits' c' hc')⟩,
      legs ++ legs', ?_, hitinerary.append hitinerary'⟩
    rw [List.map_append, hlegs, hlegs', hmid.descendantsWithin_eq, List.flatMap_cons]

/-- A walk that was not ended has seen all levels, and is an itinerary of the scope and its
descendants. -/
theorem exists_itinerary_of_walk (ht : t.Sound) (hshape : t.SameShape u)
    (h : runOn (walk visit d s) t = some (.ok f, u)) (hf : f.ended = false) :
    t.Fits d s ∧ ∃ legs, legs.map Leg.of = t.descendantsWithin d s ∧
      Itinerary (Goes visit) legs t u := by
  induction d generalizing t u s f with
  | zero => cases h
  | succ d ih =>
    obtain ⟨a, v, b, hfirst, ha, hrest, hb⟩ := goes_of_andThen h hf
    rw [Compute.runOn_read_bind] at hrest
    have htv := hvisit s hfirst
    have hvu := leads_inOrder (leads_walk hvisit d) _ hrest
    have hmid := hshape.between ht htv hvu
    obtain ⟨hfits, legs, hlegs, hitinerary⟩ := exists_itinerary_of_walkAll hvisit
      (fun ht hshape h hf => ih ht hshape h hf) (htv.sound ht) (hmid.symm.trans hshape) hrest hb
    refine ⟨.level fun c hc => hmid.symm.fits (hfits c (hmid.2 s ▸ hc)), ⟨s, t, v⟩ :: legs, ?_,
      .next ⟨a, hfirst, ha⟩ hitinerary⟩
    rw [List.map_cons, hlegs, hmid.2, hmid.descendantsWithin_eq, Tree.descendantsWithin]

/-- A walk that was not ended is an itinerary of the scope and its descendants. -/
theorem exists_itinerary_of_full_walk (ht : t.Sound) (hs : s < t.scopes.size)
    (hshape : t.SameShape u) (h : runOn (walk visit d s) t = some (.ok f, u))
    (hf : f.ended = false) :
    ∃ legs, legs.map Leg.of = t.descendants s ∧ Itinerary (Goes visit) legs t u := by
  obtain ⟨hfits, legs, hlegs, hitinerary⟩ := exists_itinerary_of_walk hvisit ht hshape h hf
  have hall := hfits.descendantsWithin_eq (ht.fits hs (Nat.le_add_left _ _))
  exact ⟨legs, hlegs.trans hall, hitinerary⟩

end Routine

end DataBinding
