import DataBinding.Proofs.Episodes
import DataBinding.Proofs.Retention
import DataBinding.Proofs.Tidiness

/-!
# The listeners of a scope

A scope lists its listeners in the order of registration, and none that was taken away
(`Tree.Attuned`).  That holds of every tree that a host comes to (`Host.attuned_of_run`).
-/

namespace DataBinding

open Compute (Leads runOn)

variable {κ σ α : Type}

/-- The scope lists listeners of its own that are there still, in the order of registration. -/
structure Scope.Attuned (listeners : Array (Listener κ)) (s : ScopeId) (a : Scope) : Prop where
  listed : ∀ l ∈ a.listeners, ∃ x, listeners[l]? = some x ∧ x.scope = s ∧ x.active = true
  sorted : a.listeners.Pairwise (· < ·)

namespace Tree

variable {t u : Tree κ σ} {s : ScopeId} {l : ListenerId}

/-- Whether a listener is there still. -/
def isListening (t : Tree κ σ) (l : ListenerId) : Bool := (t.listeners[l]?).any (·.active)

/-- Every scope lists its listeners. -/
def Attuned (t : Tree κ σ) : Prop := ∀ s, (t.scope s).Attuned t.listeners s

/-- The second tree is attuned if the first one is. -/
def Attunes (t u : Tree κ σ) : Prop := t.Attuned → u.Attuned

instance : IsPreorder (Tree κ σ) Attunes where
  refl _ := id
  trans _ _ _ h₁ h₂ := h₂ ∘ h₁

namespace Attuned

lemma housed (h : t.Attuned) (hl : l ∈ (t.scope s).listeners) : t.Houses s l := by
  obtain ⟨x, hx, hs, -⟩ := (h s).listed l hl
  exact ⟨x, hx, hs⟩

lemma isListening (h : t.Attuned) (hl : l ∈ (t.scope s).listeners) : t.isListening l = true := by
  obtain ⟨x, hx, -, hactive⟩ := (h s).listed l hl
  simp [Tree.isListening, hx, hactive]

end Attuned

/-! ## Single changes -/

/-- Scopes that list no more than before list what they should. -/
lemma attunes_of_sublist (hlisteners : u.listeners = t.listeners)
    (hscope : ∀ s, (u.scope s).listeners.Sublist (t.scope s).listeners) : Attunes t u := by
  intro h s
  rw [hlisteners]
  exact ⟨fun l hl => (h s).listed l ((hscope s).subset hl), (h s).sorted.sublist (hscope s)⟩

lemma attunes_same (hscopes : u.scopes = t.scopes) (hlisteners : u.listeners = t.listeners) :
    Attunes t u :=
  attunes_of_sublist hlisteners fun s => by rw [scope, hscopes, scope]

lemma attunes_modifyScope {f : Scope → Scope}
    (hf : ∀ a : Scope, (f a).listeners.Sublist a.listeners) : Attunes t (t.modifyScope s f) :=
  attunes_of_sublist rfl <|
    scope_modifyScope_induction (P := fun q a => a.listeners.Sublist (t.scope q).listeners)
      (fun _ => .refl _) (hf _)

lemma attunes_newScope (t : Tree κ σ) (s : ScopeId) (isolated : Bool) (parent : ScopeId) :
    Attunes t (t.newScope s isolated parent).2 := by
  refine attunes_of_sublist rfl fun q => ?_
  rcases scope_newScope_cases t s isolated parent q with ⟨data, -, h⟩ | h | ⟨-, -, h⟩ <;> rw [h]
  · exact List.nil_sublist _
  · rfl

lemma attunes_addWatcher (t : Tree κ σ) (s : ScopeId) (kind : WatchKind κ) (byValue : Bool) :
    Attunes t (t.addWatcher s kind byValue).2 := by
  have hscope : Attunes t (t.modifyScope s (·.addWatcher t.watchers.size)) := by
    refine attunes_modifyScope fun a => ?_
    unfold Scope.addWatcher
    split <;> rfl
  refine trans_of Attunes hscope ?_
  exact attunes_same rfl rfl

lemma attunes_removeWatcher (t : Tree κ σ) (w : WatcherId) : Attunes t (t.removeWatcher w) := by
  rcases removeWatcher_cases t w with h | ⟨watcher, -, ⟨-, h⟩ | ⟨-, h⟩⟩ <;> rw [h]
  · exact refl_of Attunes t
  · exact attunes_same rfl rfl
  · let v := t.modifyWatcher w ({ · with active := false })
    have hinactive : Attunes t v := attunes_same rfl rfl
    have hscope : Attunes v (v.modifyScope watcher.scope (·.removeWatcher w)) :=
      attunes_modifyScope fun _ => .refl _
    refine trans_of Attunes (trans_of Attunes hinactive hscope) ?_
    exact attunes_same rfl rfl

/-- A new listener is younger than all that there are. -/
lemma attunes_addListener (t : Tree κ σ) (s : ScopeId) (event : String) (procedure : κ) :
    Attunes t (t.addListener s event procedure).2 := by
  intro h
  have hold : ∀ q, ∀ l ∈ (t.scope q).listeners,
      ∃ x, (t.listeners.push { scope := s, event, procedure })[l]? = some x ∧ x.scope = q ∧
        x.active = true := by
    intro q l hl
    obtain ⟨x, hx, hq⟩ := (h q).listed l hl
    exact ⟨x, getElem?_push_of_some hx _, hq⟩
  refine scope_modifyScope_induction (f := (·.addListener t.listeners.size))
    (P := fun q a => a.Attuned (t.addListener s event procedure).2.listeners q)
    (fun q => ⟨hold q, (h q).sorted⟩) ?_
  unfold Scope.addListener
  split
  · refine ⟨fun l hl => ?_, List.pairwise_append.2 ⟨(h s).sorted, List.pairwise_singleton _ _, ?_⟩⟩
    · rcases List.mem_append.1 hl with hl | hl
      · exact hold s l hl
      · obtain rfl := List.mem_singleton.1 hl
        exact ⟨_, Array.getElem?_push_size, rfl, rfl⟩
    · intro l hl k hk
      obtain ⟨x, hx, -⟩ := (h s).listed l hl
      rw [List.mem_singleton.1 hk]
      exact (Array.getElem?_eq_some_iff.1 hx).1
  · exact ⟨hold s, (h s).sorted⟩

/-- A listener that is taken away is listed nowhere any more. -/
lemma attunes_removeListener (t : Tree κ σ) (l : ListenerId) :
    Attunes t (t.removeListener l) := by
  intro h
  unfold removeListener
  cases hl : t.listeners[l]? with
  | none => exact h
  | some x =>
    have hsublist : ∀ q, ((t.modifyScope x.scope (·.removeListener l)).scope q).listeners.Sublist
        (t.scope q).listeners :=
      scope_modifyScope_induction (P := fun q a => a.listeners.Sublist (t.scope q).listeners)
        (fun _ => .refl _) List.filter_sublist
    refine fun q => ⟨fun k hk => ?_, (h q).sorted.sublist (hsublist q)⟩
    replace hk : k ∈ ((t.modifyScope x.scope (·.removeListener l)).scope q).listeners := hk
    have hlisted : k ∈ (t.scope q).listeners := (hsublist q).subset hk
    obtain ⟨y, hy, rfl, hactive⟩ := (h q).listed k hlisted
    have hne : l ≠ k := by
      rintro rfl
      cases hl.symm.trans hy
      have hscope : x.scope < t.scopes.size := by
        by_contra hout
        rw [scope_of_size_le (Nat.le_of_not_lt hout)] at hlisted
        cases hlisted
      rw [scope_modifyScope_self hscope] at hk
      simpa using (List.mem_filter.1 hk).2
    exact ⟨y, by simp [Array.getElem?_modify, hne, hy], rfl, hactive⟩

lemma attunes_beginDestroy (t : Tree κ σ) (s : ScopeId) : Attunes t (t.beginDestroy s) :=
  attunes_modifyScope fun _ => .refl _

lemma attunes_tearDown (t : Tree κ σ) (s : ScopeId) : Attunes t (t.tearDown s) := by
  obtain ⟨u, hu, heq⟩ := tearDown_eq t s
  have hparent : Attunes t u := by
    rcases hu with rfl | ⟨p, rfl⟩
    · exact refl_of Attunes u
    · exact attunes_modifyScope fun _ => .refl _
  have hscope : Attunes u (u.modifyScope s (·.tornDown)) :=
    attunes_modifyScope fun _ => List.nil_sublist _
  rw [heq]
  refine trans_of Attunes (trans_of Attunes hparent hscope) ?_
  exact attunes_same rfl rfl

/-! ## Runs -/

lemma rearranges_attunes : Rearranges (Attunes (κ := κ) (σ := σ)) where
  same := attunes_same
  newScope := attunes_newScope
  addWatcher := attunes_addWatcher
  removeWatcher := attunes_removeWatcher
  addListener := attunes_addListener
  removeListener := attunes_removeListener
  beginDestroy _ := attunes_beginDestroy _ _
  tearDown := attunes_tearDown

lemma attuned_plant (store : Store σ) (compiler : Compiler) (config : Config) (timed : Bool) :
    (plant store compiler config timed : Tree κ σ).Attuned := by
  have hempty : ∀ s, ((plant store compiler config timed : Tree κ σ).scope s).listeners = [] := by
    intro s
    cases s <;> rfl
  refine fun s => ⟨fun l hl => ?_, ?_⟩
  · rw [hempty s] at hl
    cases hl
  · rw [hempty s]
    exact .nil

lemma Episode.grows (h : Episode t u) : t.Grows u := by
  obtain ⟨ds, hstory⟩ := h []
  exact hstory.grows

/-- What goes along with all that changes scopes and listeners goes along with every episode. -/
lemma Rearranges.episode {R : Tree κ σ → Tree κ σ → Prop} [IsPreorder (Tree κ σ) R]
    (hR : Rearranges R) (h : Episode t u) : R t u := by
  obtain ⟨ds, hstory⟩ := h []
  exact hR.story hstory

end Tree

/-- A host leaves an attuned tree attuned. -/
theorem Host.attuned_of_run {H : Host κ σ} {limit : ℕ} {p : Program κ σ α} {t u : Tree κ σ}
    {r : Except Error α} (h : H.run limit p t = some (r, u)) (ht : t.Attuned) : u.Attuned :=
  Tree.rearranges_attunes.episode (H.story_of_run h) ht

end DataBinding
