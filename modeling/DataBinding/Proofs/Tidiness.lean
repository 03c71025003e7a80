import DataBinding.Proofs.Scenes

/-!
# Tidy trees

A tree is tidy if every listener is listed under its own scope only, and if a scope that is gone
lists neither watchers nor listeners (`Tree.Tidy`).  Planted trees are tidy, and whatever a host
does with a tidy tree leaves it tidy, and every listener in its scope (`Scene.Story.tidies`).
-/

namespace DataBinding

variable {κ σ : Type}

/-- The scope lists nothing if it is gone. -/
def Scope.Cleared (a : Scope) : Prop := a.life = .gone → a.watchers = [] ∧ a.listeners = []

namespace Tree

variable {t u : Tree κ σ} {s : ScopeId} {l : ListenerId}

/-- The listener is one of that scope. -/
def Houses (t : Tree κ σ) (s : ScopeId) (l : ListenerId) : Prop :=
  ∃ listener, t.listeners[l]? = some listener ∧ listener.scope = s

/-- What is listed is listed under its own scope, and not under one that is gone. -/
structure Tidy (t : Tree κ σ) : Prop where
  housed : ∀ {s l}, l ∈ (t.scope s).listeners → t.Houses s l
  cleared : ∀ s, (t.scope s).Cleared

/-- The second tree is tidy if the first is, and its listeners are where they were. -/
structure Tidies (t u : Tree κ σ) : Prop where
  houses : ∀ {s l}, t.Houses s l → u.Houses s l
  tidy : t.Tidy → u.Tidy

instance : IsPreorder (Tree κ σ) Tidies where
  refl _ := ⟨id, id⟩
  trans _ _ _ h₁ h₂ := ⟨fun h => h₂.houses (h₁.houses h), fun h => h₂.tidy (h₁.tidy h)⟩

namespace Tidies

/-- The scopes are the same. -/
lemma of_scopes (hscopes : u.scopes = t.scopes) (h : ∀ {s l}, t.Houses s l → u.Houses s l) :
    Tidies t u := by
  have hscope : ∀ s, u.scope s = t.scope s := fun s => by rw [scope, scope, hscopes]
  refine ⟨h, fun ht => ⟨fun {s l} hl => ?_, fun s => ?_⟩⟩
  · rw [hscope] at hl
    exact h (ht.housed hl)
  · rw [hscope]
    exact ht.cleared s

lemma of_same (hscopes : u.scopes = t.scopes) (hlisteners : u.listeners = t.listeners) :
    Tidies t u :=
  of_scopes hscopes fun {s l} hl => by rwa [Houses, hlisteners]

/-- A scope that changes lists nothing more, or a listener of its own. -/
lemma modifyScope {f : Scope → Scope} (hcleared : ∀ a : Scope, a.Cleared → (f a).Cleared)
    (hlisted : ∀ l ∈ (f (t.scope s)).listeners, l ∈ (t.scope s).listeners ∨ t.Houses s l) :
    Tidies t (t.modifyScope s f) := by
  refine ⟨id, fun ht => ⟨fun {q l} hl => ?_, fun q => ?_⟩⟩
  · rw [scope_modifyScope] at hl
    split at hl
    · next hq =>
      obtain ⟨rfl, -⟩ := hq
      exact (hlisted l hl).elim (fun h => ht.housed h) id
    · exact ht.housed hl
  · rw [scope_modifyScope]
    split
    · exact hcleared _ (ht.cleared s)
    · exact ht.cleared q

end Tidies

/-! ## Registrations -/

lemma tidies_newScope (t : Tree κ σ) (s : ScopeId) (isolated : Bool) (parent : ScopeId) :
    Tidies t (t.newScope s isolated parent).2 := by
  refine ⟨id, fun ht => ⟨fun {q l} hl => ?_, fun q => ?_⟩⟩
  · rcases scope_newScope_cases t s isolated parent q with ⟨data, -, h⟩ | h | ⟨-, -, h⟩ <;>
      rw [h] at hl
    · cases hl
    · exact ht.housed hl
    · exact ht.housed hl
  · rcases scope_newScope_cases t s isolated parent q with ⟨data, -, h⟩ | h | ⟨-, -, h⟩ <;> rw [h]
    · exact fun hgone => ⟨rfl, rfl⟩
    · exact ht.cleared q
    · exact ht.cleared q

lemma tidies_addWatcher (t : Tree κ σ) (s : ScopeId) (kind : WatchKind κ) (byValue : Bool) :
    Tidies t (t.addWatcher s kind byValue).2 := by
  have hscope : Tidies t (t.modifyScope s (·.addWatcher t.watchers.size)) := by
    refine .modifyScope (fun a ha => ?_) fun l hl => .inl ?_
    · unfold Scope.addWatcher
      split
      · exact ha
      · next halive => exact fun hgone => absurd hgone halive
    · unfold Scope.addWatcher at hl
      split at hl <;> exact hl
  refine trans_of Tidies hscope ?_
  exact .of_same rfl rfl

lemma tidies_deactivate (t : Tree κ σ) (w : WatcherId) :
    Tidies t (t.modifyWatcher w ({ · with active := false })) := .of_same rfl rfl

lemma tidies_removeWatcher (t : Tree κ σ) (w : WatcherId) : Tidies t (t.removeWatcher w) := by
  rcases removeWatcher_cases t w with h | ⟨watcher, -, ⟨-, h⟩ | ⟨-, h⟩⟩ <;> rw [h]
  · exact refl_of Tidies t
  · exact tidies_deactivate t w
  · let v := t.modifyWatcher w ({ · with active := false })
    have hscope : Tidies v (v.modifyScope watcher.scope (·.removeWatcher w)) := by
      refine .modifyScope (fun a ha hgone => ?_) fun l hl => .inl hl
      obtain ⟨hwatchers, hlisteners⟩ := ha hgone
      exact ⟨by simp [Scope.removeWatcher, hwatchers], hlisteners⟩
    refine trans_of Tidies (trans_of Tidies (tidies_deactivate t w) hscope) ?_
    exact .of_same rfl rfl

lemma tidies_addListener (t : Tree κ σ) (s : ScopeId) (event : String) (procedure : κ) :
    Tidies t (t.addListener s event procedure).2 := by
  let u : Tree κ σ := { t with listeners := t.listeners.push { scope := s, event, procedure } }
  have hnew : u.Houses s t.listeners.size := ⟨_, Array.getElem?_push_size, rfl⟩
  have hpush : Tidies t u := by
    refine .of_scopes rfl fun {q l} => ?_
    rintro ⟨listener, hl, hq⟩
    have hlt : l < t.listeners.size := (Array.getElem?_eq_some_iff.1 hl).1
    exact ⟨listener, (Array.getElem?_push_lt hlt).trans (Array.getElem?_eq_getElem hlt ▸ hl), hq⟩
  have hscope : Tidies u (u.modifyScope s (·.addListener t.listeners.size)) := by
    refine .modifyScope (fun a ha => ?_) fun l hl => ?_
    · unfold Scope.addListener
      split
      · next halive => exact fun hgone => by simp [halive] at hgone
      · exact ha
    · unfold Scope.addListener at hl
      split at hl
      · rcases List.mem_append.1 hl with hl | hl
        · exact .inl hl
        · obtain rfl := List.mem_singleton.1 hl
          exact .inr hnew
      · exact .inl hl
  exact trans_of Tidies hpush hscope

lemma tidies_removeListener (t : Tree κ σ) (l : ListenerId) : Tidies t (t.removeListener l) := by
  unfold removeListener
  cases t.listeners[l]? with
  | none => exact refl_of Tidies t
  | some listener =>
    have hscope : Tidies t (t.modifyScope listener.scope (·.removeListener l)) := by
      refine .modifyScope (fun a ha hgone => ?_) fun k hk => .inl (List.mem_filter.1 hk).1
      obtain ⟨hwatchers, hlisteners⟩ := ha hgone
      exact ⟨hwatchers, by simp [Scope.removeListener, hlisteners]⟩
    refine trans_of Tidies hscope ?_
    refine .of_scopes rfl fun {q k} => ?_
    rintro ⟨listener', hk, hq⟩
    have hmodify : (t.listeners.modify l ({ · with active := false }))[k]? =
        some (if l = k then { listener' with active := false } else listener') := by
      rw [Array.getElem?_modify, show t.listeners[k]? = some listener' from hk]
      split <;> rfl
    refine ⟨_, hmodify, ?_⟩
    split <;> exact hq

/-! ## Destructions -/

lemma tidies_beginDestroy (t : Tree κ σ) (s : ScopeId) : Tidies t (t.beginDestroy s) :=
  .modifyScope (fun _ _ hgone => by cases hgone) fun _ hl => .inl hl

lemma tidies_tearDown (t : Tree κ σ) (s : ScopeId) : Tidies t (t.tearDown s) := by
  obtain ⟨u, hu, heq⟩ := tearDown_eq t s
  have hparent : Tidies t u := by
    rcases hu with rfl | ⟨p, rfl⟩
    · exact refl_of Tidies u
    · exact .modifyScope (fun _ ha => ha) fun _ hl => .inl hl
  have hscope : Tidies u (u.modifyScope s (·.tornDown)) :=
    .modifyScope (fun _ _ _ => ⟨rfl, rfl⟩) fun _ hl => by cases hl
  rw [heq]
  refine trans_of Tidies (trans_of Tidies hparent hscope) ?_
  exact .of_same rfl rfl

/-! ## Every change -/

lemma rearranges_tidies : Rearranges (Tidies (κ := κ) (σ := σ)) where
  same := .of_same
  newScope := tidies_newScope
  addWatcher := tidies_addWatcher
  removeWatcher := tidies_removeWatcher
  addListener := tidies_addListener
  removeListener := tidies_removeListener
  beginDestroy _ := tidies_beginDestroy _ _
  tearDown := tidies_tearDown

lemma tidy_plant (store : Store σ) (compiler : Compiler) (config : Config) (timed : Bool) :
    (plant store compiler config timed : Tree κ σ).Tidy := by
  have hempty : ∀ s, ((plant store compiler config timed : Tree κ σ).scope s).watchers = [] ∧
      ((plant store compiler config timed : Tree κ σ).scope s).listeners = [] := by
    intro s
    cases s <;> exact ⟨rfl, rfl⟩
  refine ⟨fun {s l} hl => ?_, fun s _ => hempty s⟩
  rw [(hempty s).2] at hl
  cases hl

end Tree

namespace Scene

variable {m m' : Scene κ σ} {ds : List (Deed κ)}

lemma Next.tidies (h : Next m ds m') : m.tree.Tidies m'.tree := Tree.rearranges_tidies.next h

lemma Story.tidies (h : Story m ds m') : m.tree.Tidies m'.tree := Tree.rearranges_tidies.story h

end Scene

end DataBinding
