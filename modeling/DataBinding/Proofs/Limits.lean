import DataBinding.Proofs.Runs

/-!
# Computations without a limit

Chains of calls are held to a limit, so what is computed is one computation for every limit.  Where
the one with the higher limit follows the one with the lower (`Compute.Rising`), the family is one
computation without a limit: `Compute.Ends` says how it ends and `Compute.Endless` that it does not.
There is one end at most, and two steps have no end just if the first has none or the second has
none where the first has ended (`Compute.endless_bind_iff`).  A step of which every run has an end
(`Compute.Total`) only moves the question on to what follows it.
-/

namespace DataBinding.Compute

variable {τ α β : Type}

/-- With a limit that is high enough the computation ends like this. -/
def Ends (m : ℕ → Compute τ α) (s : τ) (r : Except Error α) (t : τ) : Prop :=
  ∃ n, runOn (m n) s = some (r, t)

/-- The computation has no end, whatever the limit. -/
def Endless (m : ℕ → Compute τ α) (s : τ) : Prop := ∀ n, runOn (m n) s = none

/-- With a higher limit the computation does the same, but more of it has an end. -/
def Rising (m : ℕ → Compute τ α) : Prop := ∀ ⦃n n'⦄, n ≤ n' → Follows Eq (m n) (m n')

/-- The computation ends with a value, and then this holds of the value and the state. -/
def After (m : ℕ → Compute τ α) (s : τ) (later : α → τ → Prop) : Prop :=
  ∃ a t, Ends m s (.ok a) t ∧ later a t

variable {m : ℕ → Compute τ α} {f : ℕ → α → Compute τ β} {s t u : τ} {a : α}

/-! ## Ends -/

lemma rising_const (m : Compute τ α) : Rising fun _ => m := fun _ _ _ => .of_eq m

lemma Rising.bind (hm : Rising m) (hf : ∀ a, Rising fun n => f n a) :
    Rising fun n => m n >>= f n :=
  fun _ _ hle => (hm hle).bind fun a => hf a hle

lemma Rising.runOn_of_le (hm : Rising m) {n n' : ℕ} (hle : n ≤ n') {r : Except Error α}
    (h : runOn (m n) s = some (r, t)) : runOn (m n') s = some (r, t) := by
  obtain ⟨t', hrun, rfl⟩ := hm hle rfl h
  exact hrun

/-- There is one end at most. -/
lemma Ends.unique (hm : Rising m) {r r' : Except Error α} (h : Ends m s r t) (h' : Ends m s r' u) :
    r = r' ∧ t = u := by
  obtain ⟨n, h⟩ := h
  obtain ⟨n', h'⟩ := h'
  have heq := (hm.runOn_of_le (Nat.le_max_left n n') h).symm.trans
    (hm.runOn_of_le (Nat.le_max_right n n') h')
  cases heq
  exact ⟨rfl, rfl⟩

lemma Endless.not_ends {r : Except Error α} (h : Endless m s) : ¬ Ends m s r t := by
  rintro ⟨n, hrun⟩
  cases (h n).symm.trans hrun

/-- What is not endless ends. -/
lemma not_endless_iff : ¬ Endless m s ↔ ∃ r t, Ends m s r t := by
  constructor
  · intro h
    obtain ⟨n, h⟩ := not_forall.1 h
    obtain ⟨⟨r, t⟩, h⟩ := Option.ne_none_iff_exists'.1 h
    exact ⟨r, t, n, h⟩
  · rintro ⟨r, t, h⟩ hendless
    exact hendless.not_ends h

lemma ends_const_iff {m : Compute τ α} {r : Except Error α} :
    Ends (fun _ => m) s r t ↔ runOn m s = some (r, t) := exists_const ℕ

lemma endless_const_iff {m : Compute τ α} : Endless (fun _ => m) s ↔ runOn m s = none :=
  forall_const ℕ

/-! ## Steps -/

lemma Ends.bind {r : Except Error β} (hm : Rising m) (hf : ∀ a, Rising fun n => f n a)
    (h : Ends m s (.ok a) t) (h' : Ends (fun n => f n a) t r u) :
    Ends (fun n => m n >>= f n) s r u := by
  obtain ⟨n, h⟩ := h
  obtain ⟨n', h'⟩ := h'
  refine ⟨max n n', ?_⟩
  rw [runOn_bind_of_ok (hm.runOn_of_le (Nat.le_max_left _ _) h)]
  exact (hf a).runOn_of_le (Nat.le_max_right _ _) h'

lemma Ends.bind_error {e : Error} (h : Ends m s (.error e) t) :
    Ends (fun n => m n >>= f n) s (.error e) t :=
  h.imp fun _ => runOn_bind_of_error

/-- What two steps yield the second one yields after the first. -/
lemma Ends.of_bind {b : β} (h : Ends (fun n => m n >>= f n) s (.ok b) u) :
    After m s fun a t => Ends (fun n => f n a) t (.ok b) u := by
  obtain ⟨n, h⟩ := h
  rcases runOn_bind_cases h with ⟨_, _, h⟩ | ⟨a, t, h₁, h₂⟩
  · cases h
  · exact ⟨a, t, ⟨n, h₁⟩, n, h₂⟩

/-- Two steps yield what the second one yields after the first. -/
lemma ends_bind_iff {b : β} (hm : Rising m) (hf : ∀ a, Rising fun n => f n a) :
    Ends (fun n => m n >>= f n) s (.ok b) u ↔
      After m s fun a t => Ends (fun n => f n a) t (.ok b) u :=
  ⟨Ends.of_bind, fun ⟨_, _, hends, hrest⟩ => hends.bind hm hf hrest⟩

/-- Two steps have no end just if the first has none, or the second has none where the first has
ended. -/
lemma endless_bind_iff (hm : Rising m) (hf : ∀ a, Rising fun n => f n a) :
    Endless (fun n => m n >>= f n) s ↔
      Endless m s ∨ After m s fun a t => Endless (fun n => f n a) t := by
  constructor
  · intro h
    by_cases hfirst : Endless m s
    · exact .inl hfirst
    · obtain ⟨r, t, hends⟩ := not_endless_iff.1 hfirst
      cases r with
      | error e => exact absurd hends.bind_error h.not_ends
      | ok a =>
        refine .inr ⟨a, t, hends, ?_⟩
        by_contra hrest
        obtain ⟨r, u, hrest⟩ := not_endless_iff.1 hrest
        exact h.not_ends (hends.bind hm hf hrest)
  · intro h
    by_contra hends
    obtain ⟨r, u, n, hrun⟩ := not_endless_iff.1 hends
    rcases runOn_bind_cases hrun with ⟨e, h₁, rfl⟩ | ⟨a, t, h₁, h₂⟩
    · rcases h with h | ⟨a, t, hends, -⟩
      · exact h.not_ends ⟨n, h₁⟩
      · cases (hends.unique hm ⟨n, h₁⟩).1
    · rcases h with h | ⟨a', t', hends, h⟩
      · exact h.not_ends ⟨n, h₁⟩
      · obtain ⟨ha, rfl⟩ := hends.unique hm ⟨n, h₁⟩
        cases ha
        exact h.not_ends ⟨n, h₂⟩

lemma after_congr {later later' : α → τ → Prop}
    (h : ∀ a t, Ends m s (.ok a) t → (later a t ↔ later' a t)) :
    After m s later ↔ After m s later' :=
  exists_congr fun a => exists_congr fun t => and_congr_right fun hends => h a t hends

/-- Where two steps have no end, told apart by what is known of each. -/
lemma endless_bind_congr {now : Prop} {later : α → τ → Prop} (hm : Rising m)
    (hf : ∀ a, Rising fun n => f n a) (hnow : Endless m s ↔ now)
    (hlater : ∀ a t, Endless (fun n => f n a) t ↔ later a t) :
    Endless (fun n => m n >>= f n) s ↔ now ∨ After m s later :=
  (endless_bind_iff hm hf).trans (or_congr hnow (after_congr fun a t _ => hlater a t))

lemma after_or_iff {P Q : α → τ → Prop} :
    After m s (fun a t => P a t ∨ Q a t) ↔ After m s P ∨ After m s Q := by
  simp only [After, and_or_left, exists_or]

/-- Two ways to hold now or later are one way for the first and one for the second. -/
lemma or_after_or_iff {now p q : Prop} {later P Q : α → τ → Prop} (hnow : now ↔ p ∨ q)
    (hlater : ∀ a t, later a t ↔ P a t ∨ Q a t) :
    now ∨ After m s later ↔ (p ∨ After m s P) ∨ (q ∨ After m s Q) := by
  rw [hnow, after_congr fun a t _ => hlater a t, after_or_iff, or_or_or_comm]

/-! ## Computations that always end -/

/-- Every run has an end. -/
def Total (m : Compute τ α) : Prop := ∀ s, runOn m s ≠ none

lemma total_of_runs {m : Compute τ α} {x : τ → Except Error α × τ}
    (h : ∀ s, runOn m s = some (x s)) : Total m := fun s hnone => nomatch (h s).symm.trans hnone

lemma total_pure (a : α) : Total (pure a : Compute τ α) := total_of_runs (runOn_pure a)

lemma Total.bind {m : Compute τ α} {f : α → Compute τ β} (hm : Total m) (hf : ∀ a, Total (f a)) :
    Total (m >>= f) := by
  intro s hnone
  obtain ⟨⟨r, t⟩, hrun⟩ := Option.ne_none_iff_exists'.1 (hm s)
  cases r with
  | error e => cases hnone.symm.trans (runOn_bind_of_error hrun)
  | ok a => exact hf a t ((runOn_bind_of_ok hrun).symm.trans hnone)

lemma Total.not_endless {m : Compute τ α} (hm : Total m) (s : τ) : ¬ Endless (fun _ => m) s :=
  fun h => hm s (endless_const_iff.1 h)

/-- What always ends at last has no end just if what comes before has none. -/
lemma endless_bind_total_iff {m : ℕ → Compute τ α} {f : α → Compute τ β} {s : τ} (hm : Rising m)
    (hf : ∀ a, Total (f a)) : Endless (fun n => m n >>= f) s ↔ Endless m s := by
  refine (endless_bind_iff (f := fun _ => f) hm fun a => rising_const _).trans ?_
  refine or_iff_left ?_
  rintro ⟨a, t, -, h⟩
  exact (hf a).not_endless t h

/-- After a first step that always ends it is the second one that has an end or not. -/
lemma Total.endless_bind_iff {m : Compute τ α} {f : ℕ → α → Compute τ β} {s : τ} (hm : Total m)
    (hf : ∀ a, Rising fun n => f n a) :
    Endless (fun n => m >>= f n) s ↔ After (fun _ => m) s fun a t => Endless (fun n => f n a) t :=
  (Compute.endless_bind_iff (rising_const m) hf).trans (or_iff_right (hm.not_endless s))

lemma Total.endless_bind_congr {m : Compute τ α} {f : ℕ → α → Compute τ β} {s : τ}
    {later : α → τ → Prop} (hm : Total m) (hf : ∀ a, Rising fun n => f n a)
    (hlater : ∀ a t, Endless (fun n => f n a) t ↔ later a t) :
    Endless (fun n => m >>= f n) s ↔ After (fun _ => m) s later :=
  (hm.endless_bind_iff hf).trans (after_congr fun a t _ => hlater a t)

/-- A step that runs like this is followed from where it ends. -/
lemma after_iff_of_run {later : α → τ → Prop} (h : ∀ n, runOn (m n) s = some (.ok a, t)) :
    After m s later ↔ later a t := by
  constructor
  · rintro ⟨a', t', ⟨n, hrun⟩, hlater⟩
    cases (h n).symm.trans hrun
    exact hlater
  · exact fun hlater => ⟨a, t, ⟨0, h 0⟩, hlater⟩

lemma not_after_of_error {m : Compute τ α} {s t : τ} {e : Error} {later : α → τ → Prop}
    (h : runOn m s = some (.error e, t)) : ¬ After (fun _ => m) s later := by
  rintro ⟨a, t', ⟨n, hrun⟩, -⟩
  cases h.symm.trans hrun

end DataBinding.Compute
