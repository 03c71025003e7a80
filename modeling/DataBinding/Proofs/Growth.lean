import DataBinding.Proofs.Shape

/-!
# How trees grow

`Tree.Later t u` says that `u` can have come from `t`.  Scopes and watchers are only ever added,
what identifies them stays as it is, and a child or a watcher that was taken out of a list does not
come back.  A scope that is added lists no watcher from before.  So a tree between two trees of the
same frame has that frame too (`Later.frame_eq`): when a stretch of a run leaves the frame as it
was, nothing in between was registered, removed or destroyed.

`Tree.Sound` is what holds of every tree that was ever made.  A child is listed under its parent
alone and is younger than it, and a watcher under its scope alone while it is active.  Both lists
are in the order of registration.

Every change that a request makes to a tree leads to a later tree and keeps soundness.
-/

namespace DataBinding

/-- What a scope can become while there are `m` scopes and `n` watchers from before. -/
structure Scope.Succeeds (m n : ℕ) (a b : Scope) : Prop where
  data : b.data = a.data
  parent : b.parent = a.parent
  isolated : b.isolated = a.isolated
  life : a.life.rank ≤ b.life.rank
  children : (b.children.filter (· < m)).Sublist a.children
  watchers : (b.watchers.filter (· < n)).Sublist a.watchers

/-- What a watcher can become. -/
structure Watcher.Succeeds {κ : Type} (a b : Watcher κ) : Prop where
  scope : b.scope = a.scope
  byValue : b.byValue = a.byValue
  kind : b.kind.forget = a.kind.forget
  active : b.active = true → a.active = true

namespace Scope.Succeeds

variable {m n : ℕ} {a b c : Scope}

lemma of_static (h : b.static = a.static) : Succeeds m n a b := by
  obtain ⟨_, _, _, _, _, _, _⟩ := a
  obtain ⟨_, _, _, _, _, _, _⟩ := b
  cases h
  exact ⟨rfl, rfl, rfl, le_rfl, List.filter_sublist, List.filter_sublist⟩

lemma refl (a : Scope) : Succeeds m n a a := of_static rfl

lemma trans {m' n' : ℕ} (hm : m ≤ m') (hn : n ≤ n') (h₁ : Succeeds m n a b)
    (h₂ : Succeeds m' n' b c) : Succeeds m n a c where
  data := h₂.data.trans h₁.data
  parent := h₂.parent.trans h₁.parent
  isolated := h₂.isolated.trans h₁.isolated
  life := h₁.life.trans h₂.life
  children := by
    have hc := (h₂.children.filter (· < m)).trans h₁.children
    rwa [List.filter_filter, List.filter_congr (q := (· < m))] at hc
    intro x _
    simp only [Bool.and_eq_left_iff_imp, decide_eq_true_eq]
    omega
  watchers := by
    have hw := (h₂.watchers.filter (· < n)).trans h₁.watchers
    rwa [List.filter_filter, List.filter_congr (q := (· < n))] at hw
    intro x _
    simp only [Bool.and_eq_left_iff_imp, decide_eq_true_eq]
    omega

end Scope.Succeeds

namespace Watcher.Succeeds

variable {κ : Type} {a b c : Watcher κ}

lemma of_static (h : b.static = a.static) : Succeeds a b := by
  have hscope := congrArg Watcher.scope h
  have hbyValue := congrArg Watcher.byValue h
  have hkind := congrArg Watcher.kind h
  have hactive := congrArg Watcher.active h
  exact ⟨hscope, hbyValue, hkind, fun hb => hactive.symm.trans hb⟩

lemma trans (h₁ : Succeeds a b) (h₂ : Succeeds b c) : Succeeds a c :=
  ⟨h₂.scope.trans h₁.scope, h₂.byValue.trans h₁.byValue, h₂.kind.trans h₁.kind,
    fun hc => h₁.active (h₂.active hc)⟩

/-- Two watchers that can become each other differ in record and memory only. -/
lemma static_eq (h : Succeeds a b) (hactive : a.active = true → b.active = true) :
    b.static = a.static := by
  have ha : b.active = a.active := Bool.eq_iff_iff.2 ⟨h.active, hactive⟩
  simp only [Watcher.static, h.scope, h.byValue, h.kind, ha]

end Watcher.Succeeds

namespace Tree

variable {κ σ : Type} {t u v : Tree κ σ} {s : ScopeId} {w : WatcherId}

/-- The second tree can have come from the first. -/
structure Later (t u : Tree κ σ) : Prop where
  scopes_le : t.scopes.size ≤ u.scopes.size
  watchers_le : t.watchers.size ≤ u.watchers.size
  scope : ∀ s < t.scopes.size,
    (t.scope s).Succeeds t.scopes.size t.watchers.size (u.scope s)
  fresh : ∀ s, t.scopes.size ≤ s → ∀ w ∈ (u.scope s).watchers, t.watchers.size ≤ w
  watcher : ∀ w watcher, t.watcher? w = some watcher →
    ∃ watcher', u.watcher? w = some watcher' ∧ watcher.Succeeds watcher'

/-- What holds of every tree that was ever made. -/
structure Sound (t : Tree κ σ) : Prop where
  child : ∀ {p c : ℕ}, c ∈ (t.scope p).children →
    p < c ∧ c < t.scopes.size ∧ (t.scope c).parent = some p
  children_sorted : ∀ p, (t.scope p).children.Pairwise (· < ·)
  listed : ∀ {s w}, w ∈ (t.scope s).watchers →
    ∃ watcher, t.watcher? w = some watcher ∧ watcher.scope = s ∧ watcher.active = true
  watchers_sorted : ∀ s, (t.scope s).watchers.Pairwise (· > ·)

/-! ## Later trees -/

namespace Later

lemma of_frame (h : u.frame = t.frame) : Later t u where
  scopes_le := (size_scopes_of_frame h).ge
  watchers_le := (size_watchers_of_frame h).ge
  scope s _ := .of_static (static_scope_of_frame h s)
  fresh s hs w hw := by
    rw [watchers_of_frame h, scope_of_size_le hs] at hw
    cases hw
  watcher w watcher hw := by
    obtain ⟨watcher', hu, hs⟩ := exists_watcher?_of_frame h.symm hw
    exact ⟨watcher', hu, .of_static hs⟩

lemma refl (t : Tree κ σ) : Later t t := of_frame rfl

lemma trans (h₁ : Later t u) (h₂ : Later u v) : Later t v where
  scopes_le := h₁.scopes_le.trans h₂.scopes_le
  watchers_le := h₁.watchers_le.trans h₂.watchers_le
  scope s hs := (h₁.scope s hs).trans h₁.scopes_le h₁.watchers_le
    (h₂.scope s (hs.trans_le h₁.scopes_le))
  fresh s hs w hw := by
    by_contra hold
    have hw₁ : w < u.watchers.size := (not_le.1 hold).trans_le h₁.watchers_le
    rcases lt_or_ge s u.scopes.size with hs₁ | hs₁
    · have hmem : w ∈ (v.scope s).watchers.filter (· < u.watchers.size) :=
        List.mem_filter.2 ⟨hw, decide_eq_true hw₁⟩
      exact hold (h₁.fresh s hs w ((h₂.scope s hs₁).watchers.subset hmem))
    · exact absurd (h₂.fresh s hs₁ w hw) (not_le.2 hw₁)
  watcher w watcher hw := by
    obtain ⟨watcher₁, hu, hs₁⟩ := h₁.watcher w watcher hw
    obtain ⟨watcher₂, hv, hs₂⟩ := h₂.watcher w watcher₁ hu
    exact ⟨watcher₂, hv, hs₁.trans hs₂⟩

end Later

instance : IsPreorder (Tree κ σ) Later where
  refl := Later.refl
  trans _ _ _ := Later.trans

/-! ## Sound trees -/

namespace Sound

lemma lt_size_of_mem_watchers (h : t.Sound) (hw : w ∈ (t.scope s).watchers) :
    w < t.watchers.size := by
  obtain ⟨watcher, hwatcher, -⟩ := h.listed hw
  exact lt_size_of_watcher? hwatcher

lemma isActive (h : t.Sound) (hw : w ∈ (t.scope s).watchers) : t.isActive w = true := by
  obtain ⟨watcher, hwatcher, -, hactive⟩ := h.listed hw
  simp [Tree.isActive, hwatcher, hactive]

/-- A watcher is listed in one scope only. -/
lemma scope_unique (h : t.Sound) {q : ScopeId} (hs : w ∈ (t.scope s).watchers)
    (hq : w ∈ (t.scope q).watchers) : s = q := by
  obtain ⟨watcher, hwatcher, rfl, -⟩ := h.listed hs
  obtain ⟨watcher', hwatcher', rfl, -⟩ := h.listed hq
  cases hwatcher.symm.trans hwatcher'
  rfl

/-- Soundness depends on the frame alone. -/
lemma of_frame (h : t.Sound) (hf : u.frame = t.frame) : u.Sound where
  child {p c} hc := by
    rw [children_of_frame hf] at hc
    obtain ⟨hlt, hsize, hparent⟩ := h.child hc
    refine ⟨hlt, (size_scopes_of_frame hf).symm ▸ hsize, ?_⟩
    have hs := congrArg Scope.parent (static_scope_of_frame hf c)
    exact hs.trans hparent
  children_sorted p := by
    rw [children_of_frame hf]
    exact h.children_sorted p
  listed {s w} hw := by
    rw [watchers_of_frame hf] at hw
    obtain ⟨watcher, hwatcher, hscope, hactive⟩ := h.listed hw
    obtain ⟨watcher', hu, hs⟩ := exists_watcher?_of_frame hf.symm hwatcher
    exact ⟨watcher', hu, (congrArg Watcher.scope hs).trans hscope,
      (congrArg Watcher.active hs).trans hactive⟩
  watchers_sorted s := by
    rw [watchers_of_frame hf]
    exact h.watchers_sorted s

/-- Every child is a scope from before. -/
lemma filter_children (h : t.Sound) (p : ScopeId) :
    (t.scope p).children.filter (· < t.scopes.size) = (t.scope p).children :=
  List.filter_eq_self.2 fun _ hc => decide_eq_true (h.child hc).2.1

/-- Every listed watcher is a watcher from before. -/
lemma filter_watchers (h : t.Sound) (s : ScopeId) :
    (t.scope s).watchers.filter (· < t.watchers.size) = (t.scope s).watchers :=
  List.filter_eq_self.2 fun _ hw => decide_eq_true (h.lt_size_of_mem_watchers hw)

end Sound

/-- A tree between two trees of one frame has that frame. -/
theorem Later.frame_eq (htu : Later t u) (huv : Later u v) (hu : u.Sound) (hv : v.Sound)
    (h : v.frame = t.frame) : u.frame = t.frame := by
  have hscopes : u.scopes.size = t.scopes.size :=
    le_antisymm (huv.scopes_le.trans (size_scopes_of_frame h).le) htu.scopes_le
  have hwatchers : u.watchers.size = t.watchers.size :=
    le_antisymm (huv.watchers_le.trans (size_watchers_of_frame h).le) htu.watchers_le
  have hscope : ∀ s < t.scopes.size, (u.scope s).static = (t.scope s).static := by
    intro s hs
    have h₁ := htu.scope s hs
    have h₂ := huv.scope s (hscopes ▸ hs)
    have hback := static_scope_of_frame h s
    have hlife : (u.scope s).life = (t.scope s).life := by
      apply Life.rank_injective
      have hl := congrArg Scope.life hback
      exact le_antisymm (h₂.life.trans (congrArg Life.rank hl).le) h₁.life
    have hchildren : (u.scope s).children = (t.scope s).children := by
      have hc₁ := h₁.children
      have hc₂ := h₂.children
      rw [← hscopes, hu.filter_children] at hc₁
      rw [← (size_scopes_of_frame h).trans hscopes.symm, hv.filter_children,
        children_of_frame h] at hc₂
      exact hc₁.antisymm hc₂
    have hlisted : (u.scope s).watchers = (t.scope s).watchers := by
      have hw₁ := h₁.watchers
      have hw₂ := h₂.watchers
      rw [← hwatchers, hu.filter_watchers] at hw₁
      rw [← (size_watchers_of_frame h).trans hwatchers.symm, hv.filter_watchers,
        watchers_of_frame h] at hw₂
      exact hw₁.antisymm hw₂
    simp only [Scope.static, h₁.data, h₁.parent, h₁.isolated, hlife, hchildren, hlisted]
  have hwatcher : ∀ w watcher, t.watcher? w = some watcher →
      ∃ watcher', u.watcher? w = some watcher' ∧ watcher'.static = watcher.static := by
    intro w watcher hw
    obtain ⟨watcher₁, hw₁, hs₁⟩ := htu.watcher w watcher hw
    obtain ⟨watcher₂, hw₂, hs₂⟩ := huv.watcher w watcher₁ hw₁
    obtain ⟨watcher', hw', hback⟩ := exists_watcher?_of_frame h hw₂
    cases hw.symm.trans hw'
    refine ⟨watcher₁, hw₁, hs₁.static_eq fun hactive => hs₂.active ?_⟩
    exact (congrArg Watcher.active hback).symm.trans hactive
  refine Prod.ext ?_ ?_
  · refine Array.ext (by simpa [frame] using hscopes) fun s hs₁ hs₂ => ?_
    have hs : s < t.scopes.size := by simpa [frame] using hs₂
    have heq := hscope s hs
    rw [scope_of_lt_size hs, scope_of_lt_size (hscopes.symm ▸ hs)] at heq
    simpa [frame] using heq
  · refine Array.ext (by simpa [frame] using hwatchers) fun w hw₁ hw₂ => ?_
    have hw : w < t.watchers.size := by simpa [frame] using hw₂
    obtain ⟨watcher', hu', heq⟩ := hwatcher w t.watchers[w] (Array.getElem?_eq_getElem hw)
    have hwu : w < u.watchers.size := hwatchers ▸ hw
    have hget : u.watchers[w] = watcher' := (Array.getElem?_eq_some_iff.1 hu').2
    simpa [frame, hget] using heq

end Tree

end DataBinding
