import DataBinding.Compute
import Mathlib

/-!
# Runs of computations

How a run of a composed computation is made of runs of its parts, and two ways to carry a property
from the parts to the whole.

`Compute.Leads R m` says that every run of `m` leads from a state to one that stands in the relation
`R` to it.  For a preorder `R` it passes from the steps of a computation to the computation
(`Leads.bind`, `Leads.attempt`), so a relation between the states before and after has to be checked
for the elementary changes only.

`Compute.Follows S m m'` says that from states that are related by `S`, `m'` runs like `m` wherever
`m` has an end.  With the equality of states it is the order in which a computation grows when its
limits are raised; with a relation that forgets a part of the state it says that the computation
does not depend on that part.

What builds on this also evaluates runs on fixed inputs, by `cbv`.  The equations of the monads and
of the basic functions that it goes by are in no single part of Mathlib, which is why it is imported
as a whole here, and narrowly where nothing is evaluated.
-/

namespace DataBinding.Compute

variable {τ ρ α β : Type} {R : τ → τ → Prop}

/-! ## Taking runs apart -/

/-- A run of two steps either ends with the error of the first, or goes on with the second. -/
lemma runOn_bind_cases {m : Compute τ α} {f : α → Compute τ β} {s s' : τ} {r : Except Error β}
    (h : runOn (m >>= f) s = some (r, s')) :
    (∃ e, runOn m s = some (.error e, s') ∧ r = .error e) ∨
      ∃ a u, runOn m s = some (.ok a, u) ∧ runOn (f a) u = some (r, s') := by
  rw [runOn_bind] at h
  obtain ⟨⟨r₁, u⟩, h₁, h₂⟩ := Option.bind_eq_some_iff.1 h
  cases r₁ with
  | error e =>
    cases h₂
    exact .inl ⟨e, h₁, rfl⟩
  | ok a => exact .inr ⟨a, u, h₁, h₂⟩

/-- A run of two steps that yields a value is a run of each of them that does. -/
lemma runOn_bind_ok_cases {m : Compute τ α} {f : α → Compute τ β} {s s' : τ} {b : β}
    (h : runOn (m >>= f) s = some (.ok b, s')) :
    ∃ a u, runOn m s = some (.ok a, u) ∧ runOn (f a) u = some (.ok b, s') := by
  rcases runOn_bind_cases h with ⟨e, -, herror⟩ | h
  · cases herror
  · exact h

lemma runOn_bind_of_ok {m : Compute τ α} {f : α → Compute τ β} {s u : τ} {a : α}
    (h : runOn m s = some (.ok a, u)) : runOn (m >>= f) s = runOn (f a) u := by
  rw [runOn_bind, h]
  rfl

lemma runOn_bind_of_error {m : Compute τ α} {f : α → Compute τ β} {s u : τ} {e : Error}
    (h : runOn m s = some (.error e, u)) : runOn (m >>= f) s = some (.error e, u) := by
  rw [runOn_bind, h]
  rfl

@[simp] lemma runOn_read_bind (g : τ → α) (f : α → Compute τ β) (s : τ) :
    runOn (read g >>= f) s = runOn (f (g s)) s :=
  runOn_bind_of_ok (runOn_read g s)

@[simp] lemma runOn_change_bind (g : τ → τ) (f : Unit → Compute τ β) (s : τ) :
    runOn (change g >>= f) s = runOn (f ()) (g s) :=
  runOn_bind_of_ok (runOn_change g s)

@[simp] lemma runOn_alter_bind (g : τ → α × τ) (f : α → Compute τ β) (s : τ) :
    runOn (alter g >>= f) s = runOn (f (g s).1) (g s).2 :=
  runOn_bind_of_ok (runOn_alter g s)

/-- An attempt ends just when the computation does, and then without an error of its own. -/
lemma runOn_attempt_cases {m : Compute τ α} {s s' : τ} {r : Except Error (Except Error α)}
    (h : runOn (attempt m) s = some (r, s')) : ∃ r₁, runOn m s = some (r₁, s') ∧ r = .ok r₁ := by
  rw [runOn_attempt] at h
  obtain ⟨⟨r₁, u⟩, h₁, h₂⟩ := Option.map_eq_some_iff.1 h
  cases h₂
  exact ⟨r₁, h₁, rfl⟩

lemma runOn_attempt_of_run {m : Compute τ α} {s s' : τ} {r : Except Error α}
    (h : runOn m s = some (r, s')) : runOn (attempt m) s = some (.ok r, s') := by
  rw [runOn_attempt, h]
  rfl

/-- What follows an attempt always runs. -/
lemma runOn_attempt_bind_cases {m : Compute τ α} {f : Except Error α → Compute τ β} {s s' : τ}
    {r : Except Error β} (h : runOn (attempt m >>= f) s = some (r, s')) :
    ∃ r₁ u, runOn m s = some (r₁, u) ∧ runOn (f r₁) u = some (r, s') := by
  rcases runOn_bind_cases h with ⟨e, h₁, -⟩ | ⟨r₁, u, h₁, h₂⟩
  · obtain ⟨r₁, -, h₃⟩ := runOn_attempt_cases h₁
    cases h₃
  · obtain ⟨r₂, h₃, h₄⟩ := runOn_attempt_cases h₁
    cases h₄
    exact ⟨r₁, u, h₃, h₂⟩

lemma runOn_attempt_bind_of_run {m : Compute τ α} {f : Except Error α → Compute τ β} {s u : τ}
    {r : Except Error α} (h : runOn m s = some (r, u)) :
    runOn (attempt m >>= f) s = runOn (f r) u :=
  runOn_bind_of_ok (runOn_attempt_of_run h)

/-- What is discarded runs all the same. -/
lemma runOn_discard (m : Compute τ α) (s : τ) :
    runOn (discard m) s = (runOn m s).map fun (r, s') => (r.map fun _ => (), s') := by
  change runOn ((fun _ => ()) <$> m) s = _
  rw [← bind_pure_comp, runOn_bind]
  rcases runOn m s with _ | ⟨_ | _, _⟩ <;> rfl

lemma runOn_discard_cases {m : Compute τ α} {s s' : τ} {r : Except Error Unit}
    (h : runOn (discard m) s = some (r, s')) :
    ∃ r₁, runOn m s = some (r₁, s') ∧ r = r₁.map fun _ => () := by
  rw [runOn_discard] at h
  obtain ⟨⟨r₁, u⟩, h₁, h₂⟩ := Option.map_eq_some_iff.1 h
  cases h₂
  exact ⟨r₁, h₁, rfl⟩

/-! ## Relations that runs respect -/

/-- Every run of the computation leads to a state that is related to the one it began in. -/
def Leads (R : τ → τ → Prop) (m : Compute τ α) : Prop :=
  ∀ ⦃s r s'⦄, runOn m s = some (r, s') → R s s'

namespace Leads

lemma endless : Leads R (endless : Compute τ α) := fun _ _ _ h => nomatch h

/-- What changes nothing leads from a state to itself. -/
lemma of_eq [Std.Refl R] {m : Compute τ α} (hm : Leads Eq m) : Leads R m := fun s r s' h => by
  obtain rfl := hm h
  exact refl_of R s

lemma pure [Std.Refl R] (a : α) : Leads R (pure a : Compute τ α) := fun s _ _ h => by
  cases h
  exact refl_of R s

lemma throw [Std.Refl R] (e : Error) : Leads R (throw e : Compute τ α) := fun s _ _ h => by
  cases h
  exact refl_of R s

lemma read [Std.Refl R] (f : τ → α) : Leads R (read f) := fun s _ _ h => by
  cases h
  exact refl_of R s

lemma ofExcept [Std.Refl R] (x : Except Error α) : Leads R (ofExcept x : Compute τ α) :=
  fun s _ _ h => by
    cases h
    exact refl_of R s

lemma change {f : τ → τ} (h : ∀ s, R s (f s)) : Leads R (change f) := fun s _ _ hr => by
  cases hr
  exact h s

lemma alter {f : τ → α × τ} (h : ∀ s, R s (f s).2) : Leads R (alter f) := fun s _ _ hr => by
  cases hr
  exact h s

lemma alterEndless {f : τ → Option (α × τ)} (h : ∀ s a s', f s = some (a, s') → R s s') :
    Leads R (alterEndless f) := fun s r s' hr => by
  rw [runOn_alterEndless] at hr
  obtain ⟨⟨a, u⟩, h₁, h₂⟩ := Option.map_eq_some_iff.1 hr
  cases h₂
  exact h s _ _ h₁

lemma alter? [Std.Refl R] {f : τ → Option (α × τ)} (h : ∀ s a s', f s = some (a, s') → R s s') :
    Leads R (alter? f) := fun s r s' hr => by
  cases hf : f s with
  | none =>
    rw [runOn_alter?_of_none hf] at hr
    cases hr
    exact refl_of R s
  | some x =>
    obtain ⟨a, u⟩ := x
    rw [runOn_alter?_of_some hf] at hr
    cases hr
    exact h s a _ hf

lemma bind [IsTrans τ R] {m : Compute τ α} {f : α → Compute τ β} (hm : Leads R m)
    (hf : ∀ a, Leads R (f a)) : Leads R (m >>= f) := fun s r s' h => by
  rcases runOn_bind_cases h with ⟨e, h₁, -⟩ | ⟨a, u, h₁, h₂⟩
  · exact hm h₁
  · exact trans_of R (hm h₁) (hf a h₂)

lemma attempt {m : Compute τ α} (hm : Leads R m) : Leads R (attempt m) := fun s r s' h => by
  obtain ⟨r₁, h₁, -⟩ := runOn_attempt_cases h
  exact hm h₁

lemma map [IsPreorder τ R] {m : Compute τ α} (f : α → β) (hm : Leads R m) :
    Leads R (f <$> m) := by
  rw [← bind_pure_comp]
  exact hm.bind fun a => Leads.pure (f a)

lemma discard [IsPreorder τ R] {m : Compute τ α} (hm : Leads R m) : Leads R (discard m) :=
  hm.map _

lemma within {get : ρ → τ} {set : τ → ρ → ρ} {Q : ρ → ρ → Prop} (m : Compute τ α)
    (h : ∀ s u, Q s (set u s)) : Leads Q (within get set m) := fun s r s' hr => by
  rw [runOn_within] at hr
  obtain ⟨⟨r₁, u₁⟩, -, h₂⟩ := Option.map_eq_some_iff.1 hr
  cases h₂
  exact h s u₁

lemma mapM [IsPreorder τ R] {f : α → Compute τ β} (hf : ∀ a, Leads R (f a)) (l : List α) :
    Leads R (l.mapM f) := by
  induction l with
  | nil => exact Leads.pure []
  | cons a l ih =>
    rw [List.mapM_cons]
    exact (hf a).bind fun b => ih.bind fun bs => Leads.pure (b :: bs)

end Leads

/-! ## Computations that follow others -/

/-- From states that are related, the second computation runs like the first wherever that has an
end, and leads to states that are related again. -/
def Follows (S : τ → τ → Prop) (m m' : Compute τ α) : Prop :=
  ∀ ⦃s s' r u⦄, S s s' → runOn m s = some (r, u) → ∃ u', runOn m' s' = some (r, u') ∧ S u u'

namespace Follows

variable {S : τ → τ → Prop} {m m' : Compute τ α}

lemma endless : Follows S Compute.endless m := fun _ _ _ _ _ h => nomatch h

lemma pure (a : α) : Follows S (pure a : Compute τ α) (pure a) := fun s s' _ _ hs h => by
  cases h
  exact ⟨s', rfl, hs⟩

lemma throw (e : Error) : Follows S (throw e : Compute τ α) (throw e) := fun s s' _ _ hs h => by
  cases h
  exact ⟨s', rfl, hs⟩

lemma ofExcept (x : Except Error α) : Follows S (ofExcept x : Compute τ α) (ofExcept x) :=
  fun s s' _ _ hs h => by
    cases h
    exact ⟨s', rfl, hs⟩

lemma read {f : τ → α} (h : ∀ s s', S s s' → f s' = f s) : Follows S (read f) (read f) :=
  fun s s' _ _ hs hr => by
    cases hr
    exact ⟨s', by rw [runOn_read, h s s' hs], hs⟩

lemma change {f : τ → τ} (h : ∀ s s', S s s' → S (f s) (f s')) : Follows S (change f) (change f) :=
  fun s s' _ _ hs hr => by
    cases hr
    exact ⟨f s', rfl, h s s' hs⟩

lemma alter {f : τ → α × τ} (h : ∀ s s', S s s' → (f s').1 = (f s).1 ∧ S (f s).2 (f s').2) :
    Follows S (alter f) (alter f) := fun s s' _ _ hs hr => by
  cases hr
  obtain ⟨hvalue, hstate⟩ := h s s' hs
  exact ⟨(f s').2, by rw [runOn_alter, hvalue], hstate⟩

lemma alterEndless {f : τ → Option (α × τ)} (h : ∀ s s' a u, S s s' → f s = some (a, u) →
      ∃ u', f s' = some (a, u') ∧ S u u') : Follows S (alterEndless f) (alterEndless f) :=
  fun s s' r u hs hr => by
    rw [runOn_alterEndless] at hr
    obtain ⟨⟨a, v⟩, h₁, h₂⟩ := Option.map_eq_some_iff.1 hr
    cases h₂
    obtain ⟨u', h₃, hu⟩ := h s s' a u hs h₁
    exact ⟨u', by rw [runOn_alterEndless, h₃]; rfl, hu⟩

lemma alter? {f : τ → Option (α × τ)} (hnone : ∀ s s', S s s' → f s = none → f s' = none)
    (hsome : ∀ s s' a u, S s s' → f s = some (a, u) → ∃ u', f s' = some (a, u') ∧ S u u') :
    Follows S (alter? f) (alter? f) := fun s s' r u hs hr => by
  cases hf : f s with
  | none =>
    rw [runOn_alter?_of_none hf] at hr
    cases hr
    exact ⟨s', runOn_alter?_of_none (hnone s s' hs hf), hs⟩
  | some x =>
    obtain ⟨a, u⟩ := x
    rw [runOn_alter?_of_some hf] at hr
    cases hr
    obtain ⟨u', h₁, hu⟩ := hsome s s' a _ hs hf
    exact ⟨u', runOn_alter?_of_some h₁, hu⟩

/-- What is done with a value may depend on that the first computation yields it. -/
lemma bind_of {f f' : α → Compute τ β} (hm : Follows S m m')
    (hf : ∀ a s s' u, S s s' → runOn m s = some (.ok a, u) → Follows S (f a) (f' a)) :
    Follows S (m >>= f) (m' >>= f') := fun s s' r u hs h => by
  rcases runOn_bind_cases h with ⟨e, h₁, rfl⟩ | ⟨a, v, h₁, h₂⟩
  · obtain ⟨u', h₁', hu⟩ := hm hs h₁
    exact ⟨u', runOn_bind_of_error h₁', hu⟩
  · obtain ⟨v', h₁', hv⟩ := hm hs h₁
    obtain ⟨u', h₂', hu⟩ := hf a s s' v hs h₁ hv h₂
    exact ⟨u', by rw [runOn_bind_of_ok h₁', h₂'], hu⟩

lemma bind {f f' : α → Compute τ β} (hm : Follows S m m') (hf : ∀ a, Follows S (f a) (f' a)) :
    Follows S (m >>= f) (m' >>= f') :=
  hm.bind_of fun a _ _ _ _ _ => hf a

lemma attempt (hm : Follows S m m') : Follows S (attempt m) (attempt m') := fun s s' r u hs h => by
  obtain ⟨r₁, h₁, rfl⟩ := runOn_attempt_cases h
  obtain ⟨u', h₁', hu⟩ := hm hs h₁
  exact ⟨u', runOn_attempt_of_run h₁', hu⟩

lemma map (f : α → β) (hm : Follows S m m') : Follows S (f <$> m) (f <$> m') := by
  rw [← bind_pure_comp, ← bind_pure_comp]
  exact hm.bind fun a => .pure (f a)

lemma discard (hm : Follows S m m') : Follows S (discard m) (discard m') := hm.map _

lemma within {S' : ρ → ρ → Prop} {get : ρ → τ} {set : τ → ρ → ρ} (hm : Follows S m m')
    (hget : ∀ s s', S' s s' → S (get s) (get s'))
    (hset : ∀ s s' u u', S' s s' → S u u' → S' (set u s) (set u' s')) :
    Follows S' (within get set m) (within get set m') := fun s s' r v hs h => by
  rw [runOn_within] at h
  obtain ⟨⟨r₁, u⟩, h₁, h₂⟩ := Option.map_eq_some_iff.1 h
  cases h₂
  obtain ⟨u', h₁', hu⟩ := hm (hget s s' hs) h₁
  exact ⟨set u' s', by rw [runOn_within, h₁']; rfl, hset s s' u u' hs hu⟩

lemma mapM {f f' : α → Compute τ β} (hf : ∀ a, Follows S (f a) (f' a)) (l : List α) :
    Follows S (l.mapM f) (l.mapM f') := by
  induction l with
  | nil => exact .pure []
  | cons a l ih =>
    rw [List.mapM_cons, List.mapM_cons]
    exact (hf a).bind fun b => ih.bind fun bs => .pure (b :: bs)

/-- Computations that follow each other end alike, or neither of them has an end. -/
lemma rel {S' : τ → τ → Prop} {R : Except Error α × τ → Except Error α × τ → Prop}
    (hm : Follows S m m') (hm' : Follows S' m' m) {s s' : τ} (hs : S s s') (hs' : S' s' s)
    (hR : ∀ r {u u'}, S u u' → R (r, u) (r, u')) : Option.Rel R (runOn m s) (runOn m' s') := by
  cases hx : runOn m s with
  | none =>
    cases hy : runOn m' s' with
    | none => exact .none
    | some y =>
      obtain ⟨u, hu, -⟩ := hm' hs' hy
      cases hx.symm.trans hu
  | some x =>
    obtain ⟨u', hu', hu⟩ := hm hs hx
    rw [hu']
    exact .some (hR _ hu)

/-- Every computation follows itself from the same state. -/
lemma of_eq (m : Compute τ α) : Follows Eq m m := fun _ _ _ u hs h => ⟨u, hs ▸ h, rfl⟩

end Follows

/-! ## Computations whose results may differ -/

/-- Like `Follows`, but where `free` is the case `m'` may come to another result than `m`. -/
def Shadows (free : Prop) (S : τ → τ → Prop) (m m' : Compute τ α) : Prop :=
  ∀ ⦃s s' r u⦄, S s s' → runOn m s = some (r, u) →
    ∃ r' u', runOn m' s' = some (r', u') ∧ (free ∨ r' = r) ∧ S u u'

variable {free free' : Prop} {S : τ → τ → Prop} {m m' : Compute τ α}

lemma Follows.shadows (free : Prop) (hm : Follows S m m') : Shadows free S m m' :=
  fun s s' r u hs h => by
    obtain ⟨u', h', hu⟩ := hm hs h
    exact ⟨r, u', h', .inr rfl, hu⟩

lemma Follows.bind_shadows {f f' : α → Compute τ β} (hm : Follows S m m')
    (hf : ∀ a, Shadows free S (f a) (f' a)) : Shadows free S (m >>= f) (m' >>= f') :=
  fun s s' r u hs h => by
    rcases runOn_bind_cases h with ⟨e, h₁, rfl⟩ | ⟨a, v, h₁, h₂⟩
    · obtain ⟨u', h₁', hu⟩ := hm hs h₁
      exact ⟨_, u', runOn_bind_of_error h₁', .inr rfl, hu⟩
    · obtain ⟨v', h₁', hv⟩ := hm hs h₁
      obtain ⟨r', u', h₂', hr, hu⟩ := hf a hv h₂
      exact ⟨r', u', by rw [runOn_bind_of_ok h₁', h₂'], hr, hu⟩

namespace Shadows

lemma follows (hfree : ¬ free) (hm : Shadows free S m m') : Follows S m m' :=
  fun s s' r u hs h => by
    obtain ⟨r', u', h', hr, hu⟩ := hm hs h
    obtain rfl := hr.resolve_left hfree
    exact ⟨u', h', hu⟩

lemma mono (h : free → free') (hm : Shadows free S m m') : Shadows free' S m m' :=
  fun s s' r u hs hrun => by
    obtain ⟨r', u', h', hr, hu⟩ := hm hs hrun
    exact ⟨r', u', h', hr.imp_left h, hu⟩

lemma endless : Shadows free S Compute.endless m := Follows.endless.shadows free

lemma ofExcept {x x' : Except Error α} (h : free ∨ x' = x) :
    Shadows free S (Compute.ofExcept x) (Compute.ofExcept x') := fun s s' _ _ hs hr => by
  cases hr
  exact ⟨x', s', rfl, h, hs⟩

/-- What goes on after an attempt has to deal with whatever results the attempt may come to. -/
lemma attempt_bind {f f' : Except Error α → Compute τ β} (hm : Shadows free S m m')
    (hf : ∀ x x', free ∨ x' = x → Shadows free' S (f x) (f' x')) :
    Shadows free' S (attempt m >>= f) (attempt m' >>= f') := fun s s' r u hs h => by
  obtain ⟨x, v, h₁, h₂⟩ := runOn_attempt_bind_cases h
  obtain ⟨x', v', h₁', hx, hv⟩ := hm hs h₁
  obtain ⟨r', u', h₂', hr, hu⟩ := hf x x' hx hv h₂
  exact ⟨r', u', by rw [runOn_attempt_bind_of_run h₁', h₂'], hr, hu⟩

lemma discard (hm : Shadows free S m m') :
    Shadows free S (discard m) (discard m') := fun s s' r u hs h => by
  obtain ⟨x, h₁, rfl⟩ := runOn_discard_cases h
  obtain ⟨x', u', h₁', hx, hu⟩ := hm hs h₁
  exact ⟨_, u', by rw [runOn_discard, h₁']; rfl, hx.imp_right (congrArg _), hu⟩

end Shadows

end DataBinding.Compute
