import DataBinding.Proofs.Independence
import DataBinding.Proofs.Requests

/-!
# Hosts that spare a watcher

Many things are certain of a watcher only as long as nobody takes its registration back.  Whether
that happens is a matter of the whole run, since a program can come by a registration in any way and
take it back at any time.

So a program is run without an end from the moment at which it is about to take the watcher back
(`Program.sparing`), and so is every procedure of the host (`Host.sparing`).  A run that has an end
all the same is one in which nobody took the watcher back.  It is a run of the host itself
(`Host.run_of_sparing`).
-/

namespace DataBinding

open Compute (Follows Leads)

variable {κ σ α : Type}

/-- Whether the request takes a registration with the watcher back. -/
def Request.removes {β : Type} (q : Request κ σ β) (w : WatcherId) : Bool :=
  q.takenBack?.any (w ∈ ·.watchers)

/-- The program, without an end once it is about to take the watcher back. -/
def Program.sparing (w : WatcherId) : Program κ σ α → Program κ σ α
  | .done result => .done result
  | .ask q next =>
    if q.removes w then .compute .endless else .ask q fun answer => (next answer).sparing w

/-- The host, with procedures that do not take the watcher back. -/
def Host.sparing (H : Host κ σ) (w : WatcherId) : Host κ σ :=
  { H with procedure := fun procedure how => (H.procedure procedure how).sparing w }

namespace Engine

variable {E E' : Engine κ σ} {w : WatcherId}

/-- A program that is about to take the watcher back does not come to an end. -/
lemma execute_sparing_ask {β : Type} {q : Request κ σ β}
    {next : Except Error β → Program κ σ α} (hq : q.removes w = true) (t : Tree κ σ) :
    Compute.runOn (E.execute ((Program.ask q next).sparing w)) t = none := by
  rw [Program.sparing, if_pos hq]
  rfl

/-- What a program comes to while it spares the watcher it comes to anyway. -/
lemma follows_execute_sparing (hE : E.Akin (.journal Eq lasting_eq) E') (p : Program κ σ α) :
    Follows (Tree.Alike Eq) (E.execute (p.sparing w)) (E'.execute p) := by
  induction p with
  | done result => exact .ofExcept result
  | @ask β q next ih =>
    intro t t' r u ht h
    cases hremoves : q.removes w with
    | true =>
      rw [execute_sparing_ask hremoves] at h
      cases h
    | false =>
      rw [Program.sparing, hremoves, if_neg Bool.false_ne_true] at h
      cases hlook : q.isLook with
      | false =>
        have hanswer := follows_answer hE (Request.discreet_eq hlook)
        exact (hanswer.attempt.bind fun answer => ih answer) ht h
      | true =>
        obtain ⟨journal, rfl, rfl⟩ := ht
        cases q with
        | look => exact ih _ ⟨t.journal, rfl, rfl⟩ h
        | _ => cases hlook

end Engine

namespace Host

variable (H : Host κ σ) (w : WatcherId)

lemma akin_sparing (limit : ℕ) :
    ((H.sparing w).engine limit).Akin (.journal Eq lasting_eq) (H.engine limit) := by
  refine ⟨rfl, rfl, H.suits_journal lasting_eq, limit.le_refl, fun procedure how => ?_⟩
  change Compute.Shadows _ _ ((H.sparing w).invoke limit procedure how)
    (H.invoke limit procedure how)
  induction limit generalizing procedure how with
  | zero => exact .endless
  | succ limit ih =>
    have hE : ((H.sparing w).engine limit).Akin (.journal Eq lasting_eq) (H.engine limit) :=
      ⟨rfl, rfl, H.suits_journal lasting_eq, limit.le_refl, ih⟩
    exact (Engine.follows_execute_sparing hE (H.procedure procedure how)).shadows _

variable {H w}

/-- A run that spares the watcher and has an end is a run of the host. -/
theorem run_of_sparing {limit : ℕ} {p : Program κ σ α} {t u : Tree κ σ} {r : Except Error α}
    (h : (H.sparing w).run limit (p.sparing w) t = some (r, u)) :
    H.run limit p t = some (r, u) := by
  obtain ⟨u', hrun, journal, rfl, rfl⟩ :=
    Engine.follows_execute_sparing (H.akin_sparing w limit) p ⟨t.journal, rfl, rfl⟩ h
  exact hrun

end Host

/-! ## Relations that hold until the watcher is taken back -/

section Relations

variable {R : Tree κ σ → Tree κ σ → Prop} [IsPreorder (Tree κ σ) R] {w : WatcherId}

/-- A program that spares the watcher respects a relation that is heeded, if to take other watchers
back does. -/
lemma Engine.leads_execute_sparing {E : Engine κ σ} (hR : Grants R) (hE : E.Heeds R)
    (hremove : ∀ v ≠ w, ∀ t : Tree κ σ, R t (t.removeWatcher v)) (p : Program κ σ α) :
    Leads R (E.execute (p.sparing w)) := by
  induction p with
  | done result => exact .ofExcept result
  | @ask β q next ih =>
    cases hremoves : q.removes w with
    | true =>
      intro t r u h
      rw [execute_sparing_ask hremoves] at h
      cases h
    | false =>
      rw [Program.sparing, hremoves, if_neg Bool.false_ne_true]
      refine (leads_answer_of_deregister hR hE q fun r hr t => ?_).attempt.bind fun answer =>
        ih answer
      refine hR.deregister r (fun v hv t => hremove v ?_ t) t
      rintro rfl
      simp [Request.removes, hr, hv] at hremoves

/-- What a host does while it spares the watcher respects a relation, if its engines heed the
relation whenever their procedures respect it and if to take other watchers back does respect it. -/
theorem Host.leads_sparing (H : Host κ σ) (hR : Grants R)
    (hremove : ∀ v ≠ w, ∀ t : Tree κ σ, R t (t.removeWatcher v))
    (hE : ∀ limit,
      (∀ procedure how, Leads R (((H.sparing w).engine limit).invoke procedure how)) →
      ((H.sparing w).engine limit).Heeds R)
    (limit : ℕ) : ((H.sparing w).engine limit).Heeds R ∧
      ∀ p : Program κ σ α, Leads R (((H.sparing w).engine limit).execute (p.sparing w)) := by
  have hinvoke : ∀ limit procedure how, Leads R ((H.sparing w).invoke limit procedure how) := by
    intro limit
    induction limit with
    | zero => exact fun _ _ => .endless
    | succ limit ih =>
      exact fun procedure how =>
        Engine.leads_execute_sparing hR (hE limit ih) hremove (H.procedure procedure how)
  have hheeds := hE limit (hinvoke limit)
  exact ⟨hheeds, Engine.leads_execute_sparing hR hheeds hremove⟩

end Relations

end DataBinding
