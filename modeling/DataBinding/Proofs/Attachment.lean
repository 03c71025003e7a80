import DataBinding.Proofs.Finality
import DataBinding.Proofs.Turns

/-!
# Parents and children

Which scope is the child of which is kept twice, in the parent that a scope names and in the
children that a scope lists.  The two agree whenever a procedure of the host is called, in the
middle of a destruction as well: a scope lists those that name it and are not gone
(`Tree.Coherent`).  Nothing but a new scope and the end of a destruction changes either.

So a walk whose visits leave the children alone comes to its end, and to every descendant once
(`Routine.runOn_walk`).
-/

namespace DataBinding

open Compute (Leads runOn)
open Scene (Story)
open DataBinding.Tree (proceeds_episode)

variable {κ σ : Type}

/-- What a scope has to do with its parent and its children. -/
def Scope.kinship (a : Scope) : List ScopeId × Option ScopeId × Life :=
  (a.children, a.parent, a.life)

namespace Tree

variable {t u : Tree κ σ} {s p c : ScopeId}

/-- A scope lists those scopes as its children that name it as their parent and are not gone, and
all but the root name a parent. -/
structure Coherent (t : Tree κ σ) : Prop where
  mem_children_iff : ∀ p c, c ∈ (t.scope p).children ↔
    c < t.scopes.size ∧ (t.scope c).parent = some p ∧ p < c ∧ (t.scope c).life ≠ .gone
  root : ∀ c < t.scopes.size, (t.scope c).parent = none → c = rootId

/-- Every scope was made under a scope that there was. -/
def Grounded (t : Tree κ σ) : Prop := ∀ c p, (t.scope c).parent = some p → p < c

/-- The scopes have the same children. -/
def SameChildren (t u : Tree κ σ) : Prop := ∀ s, (u.scope s).children = (t.scope s).children

/-- The second tree is coherent if the first is. -/
def Attaches (t u : Tree κ σ) : Prop := t.Coherent → u.Coherent

instance : IsPreorder (Tree κ σ) Attaches where
  refl _ := id
  trans _ _ _ h₁ h₂ h := h₂ (h₁ h)

/-! ## Grounded trees -/

lemma lt_size_of_parent (h : (t.scope c).parent = some p) : c < t.scopes.size := by
  by_contra hc
  rw [scope_of_size_le (not_lt.1 hc)] at h
  cases h

lemma parent_newScope_of_lt (s : ScopeId) (isolated : Bool) (parent : ScopeId)
    (h : c < t.scopes.size) :
    ((t.newScope s isolated parent).2.scope c).parent = (t.scope c).parent :=
  ((later_newScope t s isolated parent).scope c h).parent

/-- Only a new scope names a new parent, and it may be any scope that there is. -/
lemma grounded_newScope_iff (t : Tree κ σ) (s : ScopeId) (isolated : Bool) (parent : ScopeId) :
    (t.newScope s isolated parent).2.Grounded ↔ t.Grounded ∧ parent < t.scopes.size := by
  obtain ⟨data, hself⟩ := scope_newScope_self t s isolated parent
  constructor
  · intro h
    refine ⟨fun c p hp => h c p ?_, h t.scopes.size parent (by rw [hself])⟩
    rw [parent_newScope_of_lt s isolated parent (lt_size_of_parent hp)]
    exact hp
  · rintro ⟨h, hparent⟩ c p hp
    have hc := lt_size_of_parent hp
    rw [size_scopes_newScope, Nat.lt_succ_iff_lt_or_eq] at hc
    rcases hc with hc | rfl
    · rw [parent_newScope_of_lt s isolated parent hc] at hp
      exact h c p hp
    · rw [hself] at hp
      cases hp
      exact hparent

/-- From parent to parent it is never far to the end. -/
lemma Grounded.wellFounded (h : t.Grounded) :
    WellFounded fun p c => (t.scope c).parent = some p :=
  Subrelation.wf (fun {p c} hp => h c p hp) Nat.lt_wfRel.wf

/-! ## Changes of a scope -/

lemma Coherent.of_kinship (h : t.Coherent) (hsize : u.scopes.size = t.scopes.size)
    (hkin : ∀ s, (u.scope s).kinship = (t.scope s).kinship) : u.Coherent := by
  have hchildren : ∀ s, (u.scope s).children = (t.scope s).children := fun s =>
    congrArg Prod.fst (hkin s)
  have hparent : ∀ s, (u.scope s).parent = (t.scope s).parent := fun s =>
    congrArg (fun k => k.2.1) (hkin s)
  have hlife : ∀ s, (u.scope s).life = (t.scope s).life := fun s =>
    congrArg (fun k => k.2.2) (hkin s)
  constructor
  · intro p c
    rw [hchildren, hparent, hlife, hsize]
    exact h.mem_children_iff p c
  · intro c hc hp
    rw [hsize] at hc
    rw [hparent] at hp
    exact h.root c hc hp

lemma attaches_same (hscopes : u.scopes = t.scopes) : Attaches t u := fun h =>
  h.of_kinship (congrArg Array.size hscopes) fun s => by rw [scope, scope, hscopes]

lemma attaches_modifyScope {f : Scope → Scope}
    (hf : (f (t.scope s)).kinship = (t.scope s).kinship) :
    Attaches t (t.modifyScope s f) := fun h =>
  h.of_kinship (size_scopes_modifyScope t s f)
    (scope_modifyScope_induction (P := fun q a => a.kinship = (t.scope q).kinship) (fun _ => rfl)
      hf)

/-! ## Registrations -/

lemma attaches_addWatcher (t : Tree κ σ) (s : ScopeId) (kind : WatchKind κ) (byValue : Bool) :
    Attaches t (t.addWatcher s kind byValue).2 := by
  have hscope : Attaches t (t.modifyScope s (·.addWatcher t.watchers.size)) := by
    refine attaches_modifyScope ?_
    unfold Scope.addWatcher
    split <;> rfl
  refine trans_of Attaches hscope ?_
  exact attaches_same rfl

lemma attaches_removeWatcher (t : Tree κ σ) (w : WatcherId) : Attaches t (t.removeWatcher w) := by
  rcases removeWatcher_cases t w with h | ⟨watcher, -, ⟨-, h⟩ | ⟨-, h⟩⟩ <;> rw [h]
  · exact refl_of Attaches t
  · exact attaches_same rfl
  · let v := t.modifyWatcher w ({ · with active := false })
    have hinactive : Attaches t v := attaches_same rfl
    have hscope : Attaches v (v.modifyScope watcher.scope (·.removeWatcher w)) :=
      attaches_modifyScope rfl
    refine trans_of Attaches (trans_of Attaches hinactive hscope) ?_
    exact attaches_same rfl

lemma attaches_addListener (t : Tree κ σ) (s : ScopeId) (event : String) (procedure : κ) :
    Attaches t (t.addListener s event procedure).2 := by
  have hscope : Attaches t (t.modifyScope s (·.addListener t.listeners.size)) := by
    refine attaches_modifyScope ?_
    unfold Scope.addListener
    split <;> rfl
  refine trans_of Attaches hscope ?_
  exact attaches_same rfl

lemma attaches_removeListener (t : Tree κ σ) (l : ListenerId) :
    Attaches t (t.removeListener l) := by
  unfold removeListener
  cases t.listeners[l]? with
  | none => exact refl_of Attaches t
  | some listener =>
    have hscope : Attaches t (t.modifyScope listener.scope (·.removeListener l)) :=
      attaches_modifyScope rfl
    refine trans_of Attaches hscope ?_
    exact attaches_same rfl

/-! ## New scopes -/

lemma attaches_newScope (t : Tree κ σ) (s : ScopeId) (isolated : Bool) (parent : ScopeId) :
    Attaches t (t.newScope s isolated parent).2 := by
  intro h
  obtain ⟨data, hself⟩ := scope_newScope_self t s isolated parent
  have hold : ∀ c < t.scopes.size,
      ((t.newScope s isolated parent).2.scope c).parent = (t.scope c).parent ∧
        ((t.newScope s isolated parent).2.scope c).life = (t.scope c).life := by
    intro c hc
    rcases scope_newScope_cases t s isolated parent c with ⟨_, rfl, -⟩ | hkept | ⟨-, -, hkept⟩
    · exact absurd hc (lt_irrefl _)
    · rw [hkept]
      exact ⟨rfl, rfl⟩
    · rw [hkept]
      exact ⟨rfl, rfl⟩
  have hchildren : ∀ p c, c ∈ ((t.newScope s isolated parent).2.scope p).children ↔
      c ∈ (t.scope p).children ∨ c = t.scopes.size ∧ p = parent ∧ p < t.scopes.size := by
    intro p c
    rcases lt_trichotomy p t.scopes.size with hp | rfl | hp
    · rw [scope_newScope_of_lt isolated parent hp, scope_modifyScope]
      by_cases hpp : p = parent
      · subst hpp
        simp [Scope.addChild, hp]
      · simp [hpp]
    · rw [hself, scope_of_size_le le_rfl]
      simp
    · rw [scope_of_size_le hp.le, scope_of_size_le]
      · simp [hp.le]
      · rw [size_scopes_newScope]
        exact hp
  constructor
  · intro p c
    rw [hchildren, h.mem_children_iff, size_scopes_newScope, Nat.lt_succ_iff_lt_or_eq]
    rcases lt_trichotomy c t.scopes.size with hc | rfl | hc
    · obtain ⟨hparent, hlife⟩ := hold c hc
      simp [hparent, hlife, hc, hc.ne]
    · simp [hself, eq_comm]
    · simp [not_lt.2 hc.le, hc.ne']
  · intro c hc hp
    rw [size_scopes_newScope, Nat.lt_succ_iff_lt_or_eq] at hc
    rcases hc with hc | rfl
    · rw [(hold c hc).1] at hp
      exact h.root c hc hp
    · rw [hself] at hp
      cases hp

/-! ## Destructions -/

lemma attaches_beginDestroy (h : (t.scope s).isDestroyed = false) :
    Attaches t (t.beginDestroy s) := by
  intro ht
  have halive : (t.scope s).life = .alive := by simpa [Scope.isDestroyed] using h
  have hkept : ∀ q, ((t.beginDestroy s).scope q).children = (t.scope q).children ∧
      ((t.beginDestroy s).scope q).parent = (t.scope q).parent ∧
      (((t.beginDestroy s).scope q).life = .gone ↔ (t.scope q).life = .gone) := by
    refine scope_modifyScope_induction (P := fun q a => a.children = (t.scope q).children ∧
      a.parent = (t.scope q).parent ∧ (a.life = .gone ↔ (t.scope q).life = .gone))
      (fun q => ⟨rfl, rfl, .rfl⟩) ⟨rfl, rfl, ?_⟩
    simp [halive]
  have hsize : (t.beginDestroy s).scopes.size = t.scopes.size := size_scopes_modifyScope t s _
  constructor
  · intro p c
    obtain ⟨-, hparent, hlife⟩ := hkept c
    rw [(hkept p).1, hparent, Ne, hlife, hsize]
    exact ht.mem_children_iff p c
  · intro c hc hp
    rw [hsize] at hc
    rw [(hkept c).2.1] at hp
    exact ht.root c hc hp

/-- What a tree looks like in which a scope was torn down: it is gone, and its parent has lost
it. -/
lemma scope_tearDown (t : Tree κ σ) (s q : ScopeId) :
    ((t.tearDown s).scope q).parent = (t.scope q).parent ∧
      ((t.tearDown s).scope q).life = (if q = s then .gone else (t.scope q).life) ∧
      ∀ c, c ∈ ((t.tearDown s).scope q).children ↔
        c ∈ (t.scope q).children ∧ ¬ (c = s ∧ (t.scope s).parent = some q) := by
  have hgone : ∀ v : Tree κ σ,
      ((v.modifyScope s (·.tornDown)).scope q).parent = (v.scope q).parent ∧
      ((v.modifyScope s (·.tornDown)).scope q).life =
        (if q = s then .gone else (v.scope q).life) ∧
      ((v.modifyScope s (·.tornDown)).scope q).children = (v.scope q).children := by
    intro v
    rw [scope_modifyScope]
    by_cases hq : q = s
    · subst hq
      by_cases hsize : q < v.scopes.size
      · simp [hsize, Scope.tornDown]
      · simp [hsize, scope_of_size_le (not_lt.1 hsize)]
    · simp [hq]
  unfold tearDown
  cases hparent : (t.scope s).parent with
  | none =>
    obtain ⟨h₁, h₂, h₃⟩ := hgone t
    refine ⟨h₁, h₂, fun c => ?_⟩
    show c ∈ ((t.modifyScope s (·.tornDown)).scope q).children ↔ _
    simp [h₃]
  | some p =>
    obtain ⟨h₁, h₂, h₃⟩ := hgone (t.modifyScope p (·.removeChild s))
    have hleft := scope_modifyScope (t := t) (s := p) (·.removeChild s) q
    refine ⟨h₁.trans ?_, h₂.trans ?_, fun c => ?_⟩
    · rw [hleft]
      split
      · next hq => rw [hq.1]; rfl
      · rfl
    · rw [hleft]
      split
      · rfl
      · split
        · next hq => rw [hq.1]; rfl
        · rfl
    · show c ∈ (((t.modifyScope p (·.removeChild s)).modifyScope s
        (·.tornDown)).scope q).children ↔ _
      rw [h₃, hleft]
      split
      · next hq =>
        obtain ⟨rfl, -⟩ := hq
        simp [Scope.removeChild]
      · next hq =>
        have hne : ¬ (c ∈ (t.scope q).children ∧ p = q) := by
          rintro ⟨hc, rfl⟩
          refine hq ⟨rfl, ?_⟩
          by_contra hsize
          rw [scope_of_size_le (not_lt.1 hsize)] at hc
          cases hc
        simp only [Option.some.injEq]
        tauto

lemma attaches_tearDown (t : Tree κ σ) (s : ScopeId) : Attaches t (t.tearDown s) := by
  intro h
  have hsize : (t.tearDown s).scopes.size = t.scopes.size := by
    obtain ⟨u, rfl | ⟨p, rfl⟩, heq⟩ := tearDown_eq t s <;> rw [heq] <;> simp
  constructor
  · intro p c
    obtain ⟨hparent, hlife, -⟩ := scope_tearDown t s c
    obtain ⟨-, -, hchildren⟩ := scope_tearDown t s p
    rw [hchildren, h.mem_children_iff, hparent, hlife, hsize]
    by_cases hc : c = s
    · subst hc
      simp only [if_true]
      tauto
    · simp [hc]
  · intro c hc hp
    rw [hsize] at hc
    rw [(scope_tearDown t s c).1] at hp
    exact h.root c hc hp

lemma rearranges_attaches : Rearranges (Attaches (κ := κ) (σ := σ)) where
  same hscopes _ := attaches_same hscopes
  newScope := attaches_newScope
  addWatcher := attaches_addWatcher
  removeWatcher := attaches_removeWatcher
  addListener := attaches_addListener
  removeListener := attaches_removeListener
  beginDestroy := attaches_beginDestroy
  tearDown := attaches_tearDown

lemma coherent_plant (store : Store σ) (compiler : Compiler) (config : Config) (timed : Bool) :
    (plant store compiler config timed : Tree κ σ).Coherent := by
  have hscope : ∀ s, ((plant store compiler config timed : Tree κ σ).scope s).children = [] ∧
      ((plant store compiler config timed : Tree κ σ).scope s).parent = none := by
    intro s
    cases s <;> exact ⟨rfl, rfl⟩
  constructor
  · intro p c
    simp [hscope]
  · intro c hc _
    exact Nat.lt_one_iff.1 hc

end Tree

/-! ## Walks that leave the children alone -/

namespace Routine

variable {visit : ScopeId → Routine κ σ Findings}
  {first first' second second' : Routine κ σ Findings} {t u : Tree κ σ} {d : ℕ} {s : ScopeId}

/-- Every visit comes to an end, and leaves all scopes the children that they have in that tree. -/
def Unintrusive (visit : ScopeId → Routine κ σ Findings) (t : Tree κ σ) : Prop :=
  ∀ c u, t.SameChildren u → ∃ r v, runOn (visit c) u = some (r, v) ∧ t.SameChildren v

/-- One visit after another runs like other two do, if the first ones run alike, and the second ones
where they begin. -/
lemma runOn_andThen_eq (h₁ : runOn first t = runOn first' t)
    (h₂ : ∀ a v, runOn first' t = some (.ok a, v) → runOn second v = runOn second' v) :
    runOn (first.andThen second) t = runOn (first'.andThen second') t := by
  cases h : runOn first' t with
  | none =>
    rw [andThen, andThen, Compute.runOn_bind, Compute.runOn_bind, h₁, h]
    rfl
  | some x =>
    obtain ⟨e | a, v⟩ := x
    · rw [runOn_andThen_of_error (h₁.trans h), runOn_andThen_of_error h]
    · cases ha : a.ended with
      | true => rw [runOn_andThen_of_ended (h₁.trans h) ha, runOn_andThen_of_ended h ha]
      | false =>
        rw [runOn_andThen_of_not_ended (h₁.trans h) ha, runOn_andThen_of_not_ended h ha, h₂ a v h]

lemma Unintrusive.inOrder (hvisit : Unintrusive visit t) (hu : t.SameChildren u)
    (cs : List ScopeId) :
    ∃ r v, runOn (inOrder visit cs) u = some (r, v) ∧ t.SameChildren v := by
  induction cs generalizing u with
  | nil => exact ⟨_, u, rfl, hu⟩
  | cons c cs ih =>
    obtain ⟨r, v, h₁, hv⟩ := hvisit c u hu
    rw [Routine.inOrder]
    cases r with
    | error e => exact ⟨_, v, runOn_andThen_of_error h₁, hv⟩
    | ok a =>
      cases ha : a.ended with
      | true => exact ⟨_, v, runOn_andThen_of_ended h₁ ha, hv⟩
      | false =>
        obtain ⟨r', v', h₂, hv'⟩ := ih hv
        exact ⟨_, v', by rw [runOn_andThen_of_not_ended h₁ ha, h₂]; rfl, hv'⟩

lemma runOn_inOrder_walk (hvisit : Unintrusive visit t) {cs : List ScopeId}
    (hwalk : ∀ c ∈ cs, ∀ u, t.SameChildren u →
      runOn (walk visit d c) u = runOn (inOrder visit (t.descendantsWithin d c)) u)
    (hu : t.SameChildren u) :
    runOn (inOrder (walk visit d) cs) u =
      runOn (inOrder visit (cs.flatMap (t.descendantsWithin d))) u := by
  induction cs generalizing u with
  | nil => rfl
  | cons c cs ih =>
    rw [List.flatMap_cons, inOrder_append, inOrder]
    refine runOn_andThen_eq (hwalk c List.mem_cons_self u hu) fun a v h => ?_
    obtain ⟨_, _, h', hv⟩ := hvisit.inOrder hu (t.descendantsWithin d c)
    cases h'.symm.trans h
    exact ih (fun c' hc' => hwalk c' (List.mem_cons_of_mem _ hc')) hv

/-- A walk goes to the descendants one by one, if it goes down far enough and the visits leave the
children alone. -/
theorem runOn_walk (hvisit : Unintrusive visit t) (hfits : t.Fits d s) (hu : t.SameChildren u) :
    runOn (walk visit d s) u = runOn (inOrder visit (t.descendantsWithin d s)) u := by
  induction hfits generalizing u with
  | @level d s _ ih =>
    rw [walk, Tree.descendantsWithin, inOrder]
    refine runOn_andThen_eq rfl fun a v h => ?_
    obtain ⟨_, _, h', hv⟩ := hvisit s u hu
    cases h'.symm.trans h
    rw [Compute.runOn_read_bind, hv s]
    exact runOn_inOrder_walk hvisit (fun c hc u hu => ih c hc hu) hv

end Routine

/-! ## Runs -/

open Routine (walk inOrder Unintrusive)

/-- At every moment of a story that begins with a planted tree, a scope lists its children once
each, and they name it as their parent; every scope but the root whose destruction has not begun is
listed by its parent, and the way from parent to parent is finite; a scope whose destruction has
returned is not listed any more.  A walk whose visits leave the children alone comes to an end, and
to the descendants of its scope once each, to parents before their children.  And every run is a
story. -/
theorem Host.kinship_coherent (H : Host κ σ) (store : Store σ) (compiler : Compiler)
    (config : Config) (timed : Bool) :
    (∀ {α : Type} (limit : ℕ) (p : Program κ σ α) (r : Except Error α) (u : Tree κ σ),
      H.run limit p (.plant store compiler config timed) = some (r, u) →
      ∃ ds, Story ⟨[], .plant store compiler config timed⟩ ds ⟨[], u⟩) ∧
    ∀ (ds : List (Deed κ)) (frames : List (Frame κ)) (t : Tree κ σ),
      Story ⟨[], .plant store compiler config timed⟩ ds ⟨frames, t⟩ →
      (∀ p, ∀ c ∈ (t.scope p).children,
        (t.scope c).parent = some p ∧ (t.scope p).children.count c = 1) ∧
      (t.Grounded → ∀ c < t.scopes.size, c ≠ rootId → (t.scope c).isDestroyed = false →
        ∃ p < t.scopes.size, (t.scope c).parent = some p ∧ (t.scope p).children.count c = 1) ∧
      (t.Grounded → WellFounded fun p c => (t.scope c).parent = some p) ∧
      (∀ (limit : ℕ) (s : ScopeId) (u : Tree κ σ) (ds' : List (Deed κ)) (m : Scene κ σ),
        (t.scope s).isDestroyed = false →
        runOn ((H.engine limit).destroy s) t = some (.ok (), u) → Story ⟨frames, u⟩ ds' m →
        ∀ p, s ∉ (m.tree.scope p).children) ∧
      ∀ s < t.scopes.size,
        (t.descendants s).Nodup ∧ (∀ b, b ∈ t.descendants s ↔ t.Under s b) ∧
        (∀ p c, t.Under s p → c ∈ (t.scope p).children → [p, c].Sublist (t.descendants s)) ∧
        ∀ (visit : ScopeId → Routine κ σ Findings) (d : ℕ), t.scopes.size ≤ d →
          Unintrusive visit t →
          runOn (walk visit d s) t = runOn (inOrder visit (t.descendants s)) t ∧
          (runOn (walk visit d s) t).isSome := by
  refine ⟨fun limit p r u h => Host.story_of_run h [], fun ds frames t hstory => ?_⟩
  have hsound : t.Sound := hstory.grows.sound (Tree.sound_plant ..)
  have hcoherent : t.Coherent := Tree.rearranges_attaches.story hstory (Tree.coherent_plant ..)
  have honce : ∀ p, ∀ c ∈ (t.scope p).children, (t.scope p).children.count c = 1 := fun p c hc =>
    List.count_eq_one_of_mem (hsound.nodup_children p) hc
  refine ⟨fun p c hc => ⟨(hsound.child hc).2.2, honce p c hc⟩, ?_, Tree.Grounded.wellFounded,
    ?_, ?_⟩
  · intro hgrounded c hc hroot halive
    obtain ⟨p, hp⟩ : ∃ p, (t.scope c).parent = some p := by
      cases hp : (t.scope c).parent with
      | none => exact absurd (hcoherent.root c hc hp) hroot
      | some p => exact ⟨p, rfl⟩
    have hpc := hgrounded c p hp
    have hlife : (t.scope c).life ≠ .gone := by
      have hlife : (t.scope c).life = .alive := by simpa [Scope.isDestroyed] using halive
      simp [hlife]
    have hlisted := (hcoherent.mem_children_iff p c).2 ⟨hc, hp, hpc, hlife⟩
    exact ⟨p, hpc.trans hc, hp, honce p c hlisted⟩
  · intro limit s u ds' m halive hdestroy hafter p hlisted
    have hdeliver := (H.heeds_episode limit).deliver
    obtain ⟨ds₁, hmeanwhile⟩ :=
      Engine.leads_destroy hdeliver proceeds_episode.toPermits.grants s hdestroy frames
    have hlater := Tree.rearranges_attaches.story ((hstory.trans hmeanwhile).trans hafter)
      (Tree.coherent_plant ..)
    obtain ⟨hknown, hgone⟩ :=
      Engine.gone_of_destroy hdeliver (by simpa [Scope.isDestroyed] using halive) hdestroy
    obtain ⟨-, -, -, hlife⟩ := (hlater.mem_children_iff p s).1 hlisted
    exact hlife (hafter.grows.later.gone hknown hgone)
  · intro s hs
    refine ⟨hsound.nodup_descendants s, fun b => hsound.mem_descendants hs,
      fun p c => hsound.parent_before_child hs, fun visit d hd hvisit => ?_⟩
    have hfits := hsound.fits hs (hd.trans (Nat.le_add_left d s))
    have hwalk := Routine.runOn_walk hvisit hfits fun _ => rfl
    obtain ⟨r, v, hrun, -⟩ := hvisit.inOrder (fun _ => rfl) (t.descendantsWithin d s)
    have hlevels : t.descendantsWithin d s = t.descendants s :=
      hfits.descendantsWithin_eq (hsound.fits hs (Nat.le_add_left _ s))
    rw [← hlevels, hwalk, hrun]
    exact ⟨rfl, rfl⟩

/-! ## A host whose scopes are brought up elsewhere -/

/-- A host that never does anything when it is called. -/
def idler : Host Unit Unit where
  library := ⟨fun _ _ _ => .endless, fun _ _ => .endless⟩
  report := fun _ host => host
  procedure _ _ := return .undefined

/-- Makes a child of the root, and a child of that one which inherits from the root. -/
def fosterSetup : Program Unit Unit Unit := do
  let s ← Program.request (.newChild rootId false rootId)
  discard <| Program.request (.newChild rootId false s)

/-- The second scope is a child of the first as long as it is not destroyed. -/
theorem foster_coherent : ∃ t u, idler.run 9 fosterSetup
      (.plant ⟨.empty, ()⟩ ⟨.empty, .empty⟩ {} false) = some (.ok (), t) ∧
    t.Grounded ∧ runOn ((idler.engine 9).destroy 2) t = some (.ok (), u) ∧
    (∃ p, (t.scope 2).parent = some p ∧ (t.scope p).children.count 2 = 1) ∧
    ∀ p, 2 ∉ (u.scope p).children := by
  obtain ⟨hruns, hstories⟩ := idler.kinship_coherent ⟨.empty, ()⟩ ⟨.empty, .empty⟩ {} false
  have hrun : ∃ t u, idler.run 9 fosterSetup
        (.plant ⟨.empty, ()⟩ ⟨.empty, .empty⟩ {} false) = some (.ok (), t) ∧
      t.scopes.size = 3 ∧ (∀ c < 3, ∀ p ∈ (t.scope c).parent, p < c) ∧
      (t.scope 2).isDestroyed = false ∧
      runOn ((idler.engine 9).destroy 2) t = some (.ok (), u) := by
    generalize hx : idler.run 9 fosterSetup _ = x
    cbv at hx
    subst hx
    exact ⟨_, _, rfl, rfl, by decide, rfl, rfl⟩
  obtain ⟨t, u, hrun, hsize, hparents, halive, hdestroy⟩ := hrun
  have hgrounded : t.Grounded := fun c p hp =>
    hparents c (hsize ▸ Tree.lt_size_of_parent hp) p hp
  obtain ⟨ds, hstory⟩ := hruns 9 fosterSetup _ t hrun
  obtain ⟨-, hlisted, -, hgone, -⟩ := hstories ds [] t hstory
  obtain ⟨p, -, hp⟩ := hlisted hgrounded 2 (by omega) (by decide) halive
  exact ⟨t, u, hrun, hgrounded, hdestroy, ⟨p, hp⟩, hgone 9 2 u [] _ halive hdestroy (.none _)⟩

end DataBinding
