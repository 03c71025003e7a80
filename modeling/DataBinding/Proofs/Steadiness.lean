import DataBinding.Proofs.Simulation
import DataBinding.Proofs.Thawing
import DataBinding.Proofs.Turns

/-!
# Trees that stay as they are

Where nothing happens but that one watcher is checked, told of changes and taken away, the scopes
keep their children and their data (`Tree.Steady`).  A listener that only reads leaves even more as
it was (`Tree.Untouched`).

A walk in a tree that keeps its levels has an end if its visits have, and what is known of the
visits adds up (`Routine.Chained.exists_walk`).
-/

namespace DataBinding

open Compute (runOn)

variable {κ σ : Type}

/-! ## Walks that come to an end -/

namespace Routine

variable {ι : Type} {J : Tree κ σ → Prop}
  {R : List WatcherId → Tree κ σ → Findings → Tree κ σ → Prop} {t : Tree κ σ}

/-- What is known of visits to watchers and can be put together: `J` is where a visit may start, and
`R` is what visits to so many watchers come to. -/
structure Chained (J : Tree κ σ → Prop)
    (R : List WatcherId → Tree κ σ → Findings → Tree κ σ → Prop) : Prop where
  none : ∀ {t}, J t → R [] t {} t
  ended : ∀ {l l' t f u}, R l t f u → f.ended = true → R (l ++ l') t f u
  more : ∀ {l l' t f u g v}, R l t f u → f.ended = false → R l' u g v →
    R (l ++ l') t ⟨f.dirty || g.dirty, g.ended⟩ v
  keeps : ∀ {l t f u}, R l t f u → J u

namespace Chained

variable (hR : Chained J R)

include hR

lemma exists_andThen {first second : Routine κ σ Findings} {l l' : List WatcherId}
    (hfirst : ∃ f u, runOn first t = some (.ok f, u) ∧ R l t f u)
    (hsecond : ∀ u, J u → ∃ f v, runOn second u = some (.ok f, v) ∧ R l' u f v) :
    ∃ f u, runOn (first.andThen second) t = some (.ok f, u) ∧ R (l ++ l') t f u := by
  obtain ⟨f, u, hrun, hf⟩ := hfirst
  cases hended : f.ended with
  | true => exact ⟨f, u, runOn_andThen_of_ended hrun hended, hR.ended hf hended⟩
  | false =>
    obtain ⟨g, v, hrun', hg⟩ := hsecond u (hR.keeps hf)
    refine ⟨_, v, ?_, hR.more hf hended hg⟩
    rw [runOn_andThen_of_not_ended hrun hended, hrun']
    rfl

lemma exists_inOrder {visit : ι → Routine κ σ Findings} {turns : ι → List WatcherId} {l : List ι}
    (hvisit : ∀ i ∈ l, ∀ t, J t → ∃ f u, runOn (visit i) t = some (.ok f, u) ∧ R (turns i) t f u)
    (ht : J t) :
    ∃ f u, runOn (inOrder visit l) t = some (.ok f, u) ∧ R (l.flatMap turns) t f u := by
  induction l generalizing t with
  | nil => exact ⟨{}, t, rfl, hR.none ht⟩
  | cons i l ih =>
    exact hR.exists_andThen (hvisit i (.head _) t ht) fun u hu =>
      ih (fun j hj => hvisit j (.tail _ hj)) hu

/-- A walk through levels that the tree keeps visits the watchers that have turns. -/
lemma exists_walk {base : Tree κ σ} {visit : ScopeId → Routine κ σ Findings}
    (hchildren : ∀ {u}, J u → ∀ s, (u.scope s).children = (base.scope s).children)
    {d : ℕ} {s : ScopeId} (hvisit : ∀ b, base.Under s b → ∀ t, J t →
      ∃ f u, runOn (visit b) t = some (.ok f, u) ∧ R (base.scope b).watchers t f u)
    (hfits : base.Fits d s) (ht : J t) :
    ∃ f u, runOn (walk visit d s) t = some (.ok f, u) ∧ R (base.turnsWithin d s) t f u := by
  induction d generalizing s t with
  | zero => cases hfits
  | succ d ih =>
    obtain ⟨hfits⟩ := hfits
    refine hR.exists_andThen (hvisit s .refl t ht) fun u hu => ?_
    rw [Compute.runOn_read_bind, hchildren hu]
    exact hR.exists_inOrder
      (fun c hc v hv => ih (fun b hb => hvisit b (.head hc hb)) (hfits c hc) hv) hu

end Chained

end Routine

/-! ## Steady trees -/

namespace Tree

variable {t u v : Tree κ σ} {w : WatcherId} {x : Watcher κ}

/-- Nothing has happened from `t` to `u` but that the watcher `w` was checked, was told of a change
or was taken away, and that the heap has grown. -/
structure Steady (w : WatcherId) (t u : Tree κ σ) : Prop where
  children : ∀ s, (u.scope s).children = (t.scope s).children
  watchers : ∀ s, (u.scope s).watchers ⊆ (t.scope s).watchers
  data : ∀ s, u.data s = t.data s
  keeps : t.store.heap.Keeps u.store.heap
  config : u.config = t.config
  async : u.queues.async = t.queues.async
  watcher : (u.watcher? w).map (fun x => (x.scope, x.byValue, x.kind.forget)) =
    (t.watcher? w).map fun x => (x.scope, x.byValue, x.kind.forget)

namespace Steady

lemma of_eq (hscopes : u.scopes = t.scopes) (hwatchers : u.watchers = t.watchers)
    (hkeeps : t.store.heap.Keeps u.store.heap) (hconfig : u.config = t.config)
    (hasync : u.queues.async = t.queues.async) : Steady w t u := by
  have hscope : ∀ s, u.scope s = t.scope s := fun s => by rw [scope, hscopes, scope]
  refine ⟨fun s => by rw [hscope], fun s => by rw [hscope]; exact List.Subset.refl _,
    fun s => by rw [Tree.data, hscope, Tree.data], hkeeps, hconfig, hasync, ?_⟩
  rw [watcher?, hwatchers, watcher?]

lemma refl (w : WatcherId) (t : Tree κ σ) : Steady w t t := .of_eq rfl rfl (.refl _) rfl rfl

lemma trans (h₁ : Steady w t u) (h₂ : Steady w u v) : Steady w t v where
  children s := (h₂.children s).trans (h₁.children s)
  watchers s := List.Subset.trans (h₂.watchers s) (h₁.watchers s)
  data s := (h₂.data s).trans (h₁.data s)
  keeps := h₁.keeps.trans h₂.keeps
  config := h₂.config.trans h₁.config
  async := h₂.async.trans h₁.async
  watcher := h₂.watcher.trans h₁.watcher

lemma modifyWatcher {g : Watcher κ → Watcher κ} (hg : ∀ x, t.watcher? w = some x →
    (g x).scope = x.scope ∧ (g x).byValue = x.byValue ∧ (g x).kind.forget = x.kind.forget) :
    Steady w t (t.modifyWatcher w g) := by
  refine ⟨fun _ => rfl, fun _ => List.Subset.refl _, fun _ => rfl, .refl _, rfl, rfl, ?_⟩
  rw [watcher?_modifyWatcher_self]
  cases hx : t.watcher? w with
  | none => rfl
  | some x =>
    obtain ⟨hscope, hbyValue, hkind⟩ := hg x hx
    simp [hscope, hbyValue, hkind]

lemma setKind {kind : WatchKind κ} (hx : t.watcher? w = some x)
    (hkind : kind.forget = x.kind.forget) : Steady w t (t.setKind w kind) := by
  refine .modifyWatcher fun y hy => ?_
  cases hx.symm.trans hy
  exact ⟨rfl, rfl, hkind⟩

lemma removeWatcher (t : Tree κ σ) (w : WatcherId) : Steady w t (t.removeWatcher w) := by
  have hinactive : Steady w t (t.modifyWatcher w ({ · with active := false })) :=
    .modifyWatcher fun _ _ => ⟨rfl, rfl, rfl⟩
  rcases removeWatcher_cases t w with h | ⟨x, -, ⟨-, h⟩ | ⟨-, h⟩⟩
  · rw [h]
    exact .refl w t
  · rw [h]
    exact hinactive
  · rw [h]
    refine hinactive.trans ⟨fun s => ?_, fun s => ?_, fun s => ?_, .refl _, rfl, rfl, rfl⟩
    · refine (congrArg Scope.children (scope_modifyScope _ s)).trans ?_
      split
      · next heq => rw [heq.1]; rfl
      · rfl
    · have hscope := congrArg Scope.watchers (scope_modifyScope
        (t := t.modifyWatcher w ({ · with active := false })) (s := x.scope) (·.removeWatcher w) s)
      refine hscope ▸ ?_
      split
      · next heq => rw [heq.1]; exact fun v hv => (List.mem_filter.1 hv).1
      · exact List.Subset.refl _
    · refine (congrArg Scope.data (scope_modifyScope _ s)).trans ?_
      split
      · next heq => rw [heq.1]; rfl
      · rfl

lemma exists_watcher (h : Steady w t u) (hx : t.watcher? w = some x) :
    ∃ y, u.watcher? w = some y ∧ y.scope = x.scope ∧ y.byValue = x.byValue ∧
      y.kind.forget = x.kind.forget := by
  have hw := h.watcher
  rw [hx] at hw
  obtain ⟨y, hy, heq⟩ := Option.map_eq_some_iff.1 hw
  simp only [Prod.mk.injEq] at heq
  exact ⟨y, hy, heq⟩

end Steady

/-- Nothing but the heap, the state of the host, the cache of the compiler and the journal differs,
and what was in the heap is as it was. -/
structure Untouched (t u : Tree κ σ) : Prop where
  keeps : t.store.heap.Keeps u.store.heap
  eq : ∃ store compiler journal, u = { t with store, compiler, journal }

namespace Untouched

lemma refl (t : Tree κ σ) : Untouched t t := ⟨.refl _, _, _, _, rfl⟩

lemma trans (h₁ : Untouched t u) (h₂ : Untouched u v) : Untouched t v := by
  obtain ⟨hkeeps, _, _, _, rfl⟩ := h₁
  obtain ⟨hkeeps', _, _, _, rfl⟩ := h₂
  exact ⟨hkeeps.trans hkeeps', _, _, _, rfl⟩

lemma note (t : Tree κ σ) (step : Step κ) : Untouched t (t.note step) := ⟨.refl _, _, _, _, rfl⟩

lemma withStore {store : Store σ} (hkeeps : t.store.heap.Keeps store.heap) :
    Untouched t { t with store } := ⟨hkeeps, _, _, _, rfl⟩

lemma steady (h : Untouched t u) : Steady w t u := by
  obtain ⟨hkeeps, _, _, _, rfl⟩ := h
  exact .of_eq rfl rfl hkeeps rfl rfl

lemma watcher? (h : Untouched t u) (w : WatcherId) : u.watcher? w = t.watcher? w := by
  obtain ⟨-, _, _, _, rfl⟩ := h
  rfl

lemma queues (h : Untouched t u) : u.queues = t.queues := by
  obtain ⟨-, _, _, _, rfl⟩ := h
  rfl

lemma scopes (h : Untouched t u) : u.scopes = t.scopes := by
  obtain ⟨-, _, _, _, rfl⟩ := h
  rfl

lemma lastDirty (h : Untouched t u) : u.lastDirty = t.lastDirty := by
  obtain ⟨-, _, _, _, rfl⟩ := h
  rfl

end Untouched

/-! ## Recording -/

lemma record_of_agrees {new : Value} (hx : t.watcher? w = some x)
    (hsame : x.last.any (t.store.heap.agrees · new) = true) :
    t.record w new = some (none, t) := by
  simp [record, hx, hsame]

/-- What differs from the last record is recorded, and nothing in the heap is changed. -/
lemma record_of_differs {new : Value} {frozen : Frozen} (hx : t.watcher? w = some x)
    (hdiffers : x.last.any (t.store.heap.agrees · new) = false)
    (hfrozen : t.store.heap.recorded? x.byValue new = some frozen) :
    ∃ change store, change.new = new ∧ t.store.heap.Keeps store.heap ∧ t.record w new =
      some (some change, { t.modifyWatcher w ({ · with last := some frozen }) with store }) := by
  cases hlast : x.last with
  | none =>
    refine ⟨⟨new, new⟩, t.store, rfl, .refl _, ?_⟩
    simp [record, hx, hlast, hfrozen]
    rfl
  | some last =>
    refine ⟨⟨new, (last.thaw t.store.heap).1⟩,
      { t.store with heap := (last.thaw t.store.heap).2 }, rfl, last.keeps_thaw _, ?_⟩
    have hdiffers : t.store.heap.agrees last new = false := by simpa [hlast] using hdiffers
    simp [record, hx, hlast, hfrozen, hdiffers]
    rfl

end Tree

end DataBinding
