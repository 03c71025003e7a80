import DataBinding.Error

/-!
# Computations

A computation works on a state and ends with a value or an error; the state it leaves behind is
kept either way.  A computation may also have no end, and then it leaves nothing behind.
-/

namespace DataBinding

/-- A computation over the state `τ`.  Run on a state it is `none` if it has no end. -/
abbrev Compute (τ α : Type) : Type := ExceptT Error (StateT τ Option) α

namespace Compute

variable {τ ρ α β : Type}

/-- Runs a computation. -/
def runOn (m : Compute τ α) (s : τ) : Option (Except Error α × τ) := m.run.run s

/-- The computation without end. -/
def endless : Compute τ α := fun _ => none

/-- A value that may have no end to compute. -/
def ofOption (x : Option α) : Compute τ α := fun s => x.map fun a => (.ok a, s)

/-- A value or an error. -/
def ofExcept (x : Except Error α) : Compute τ α := fun s => some (x, s)

/-- A value that is read off the state. -/
def read (f : τ → α) : Compute τ α := fun s => some (.ok (f s), s)

/-- A change of the state. -/
def change (f : τ → τ) : Compute τ Unit := fun s => some (.ok (), f s)

/-- A change of the state that also yields a value. -/
def alter (f : τ → α × τ) : Compute τ α := fun s => some (.ok (f s).1, (f s).2)

/-- A change of the state that yields a value, or has no end. -/
def alterEndless (f : τ → Option (α × τ)) : Compute τ α := fun s =>
  (f s).map fun (a, s') => (.ok a, s')

/-- A change of the state that yields a value, if there is one to make. -/
def alter? (f : τ → Option (α × τ)) : Compute τ (Option α) := fun s =>
  match f s with
  | some (a, s') => some (.ok (some a), s')
  | none => some (.ok none, s)

/-- Ends without an error: an error becomes the value. -/
def attempt (m : Compute τ α) : Compute τ (Except Error α) := fun s =>
  (runOn m s).map fun (r, s') => (.ok r, s')

/-- Works on a part of the state. -/
def within (get : ρ → τ) (set : τ → ρ → ρ) (m : Compute τ α) : Compute ρ α := fun s =>
  (runOn m (get s)).map fun (r, t) => (r, set t s)

/-- Computations that run alike are the same. -/
theorem ext {m m' : Compute τ α} (h : ∀ s, runOn m s = runOn m' s) : m = m' := funext h

@[simp] theorem runOn_pure (a : α) (s : τ) : runOn (pure a : Compute τ α) s = some (.ok a, s) := rfl

@[simp] theorem runOn_throw (e : Error) (s : τ) :
    runOn (throw e : Compute τ α) s = some (.error e, s) := rfl

theorem runOn_bind (m : Compute τ α) (f : α → Compute τ β) (s : τ) :
    runOn (m >>= f) s =
      (runOn m s).bind fun
        | (.ok a, s') => runOn (f a) s'
        | (.error e, s') => some (.error e, s') := by
  change ExceptT.bind m f s = _
  simp only [ExceptT.bind, ExceptT.mk, runOn, ExceptT.run, StateT.run, bind, StateT.bind]
  congr 1
  funext r
  rcases r with ⟨_ | _, _⟩ <;> rfl

@[simp] theorem runOn_endless (s : τ) : runOn (endless : Compute τ α) s = none := rfl

@[simp] theorem runOn_ofOption (x : Option α) (s : τ) :
    runOn (ofOption x) s = x.map fun a => (.ok a, s) := rfl

@[simp] theorem runOn_ofExcept (x : Except Error α) (s : τ) :
    runOn (ofExcept x) s = some (x, s) := rfl

@[simp] theorem runOn_read (f : τ → α) (s : τ) : runOn (read f) s = some (.ok (f s), s) := rfl

@[simp] theorem runOn_change (f : τ → τ) (s : τ) : runOn (change f) s = some (.ok (), f s) := rfl

@[simp] theorem runOn_alter (f : τ → α × τ) (s : τ) :
    runOn (alter f) s = some (.ok (f s).1, (f s).2) := rfl

@[simp] theorem runOn_alterEndless (f : τ → Option (α × τ)) (s : τ) :
    runOn (alterEndless f) s = (f s).map fun (a, s') => (.ok a, s') := rfl

theorem runOn_alter?_of_some {f : τ → Option (α × τ)} {s s' : τ} {a : α} (h : f s = some (a, s')) :
    runOn (alter? f) s = some (.ok (some a), s') := by
  simp only [runOn, ExceptT.run, StateT.run, alter?, h]

theorem runOn_alter?_of_none {f : τ → Option (α × τ)} {s : τ} (h : f s = none) :
    runOn (alter? f) s = some (.ok none, s) := by
  simp only [runOn, ExceptT.run, StateT.run, alter?, h]

@[simp] theorem runOn_attempt (m : Compute τ α) (s : τ) :
    runOn (attempt m) s = (runOn m s).map fun (r, s') => (.ok r, s') := rfl

/-- What begins with an attempt can be attempted from its second step on. -/
theorem attempt_attempt_bind (m : Compute τ α) (f : Except Error α → Compute τ β) :
    attempt (attempt m >>= f) = attempt m >>= fun r => attempt (f r) := by
  refine ext fun s => ?_
  rw [runOn_attempt, runOn_bind, runOn_bind, runOn_attempt]
  cases runOn m s <;> rfl

@[simp] theorem runOn_within (get : ρ → τ) (set : τ → ρ → ρ) (m : Compute τ α) (s : ρ) :
    runOn (within get set m) s = (runOn m (get s)).map fun (r, t) => (r, set t s) := rfl

end Compute

end DataBinding
