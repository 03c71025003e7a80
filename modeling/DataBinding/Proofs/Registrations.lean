import DataBinding.Proofs.Growth

/-!
# Registering and removing

What the changes of scopes and watchers do to the shape of a tree.  Listeners of events are not part
of it.  Every other change leads to a later tree and keeps soundness.
-/

namespace DataBinding.Tree

variable {κ σ : Type} {t u : Tree κ σ} {s : ScopeId} {w : WatcherId}

/-! ## A scope or a watcher changes -/

@[simp] lemma size_scopes_modifyScope (t : Tree κ σ) (s : ScopeId) (f : Scope → Scope) :
    (t.modifyScope s f).scopes.size = t.scopes.size := by
  simp [modifyScope]

@[simp] lemma size_watchers_modifyWatcher (t : Tree κ σ) (w : WatcherId)
    (f : Watcher κ → Watcher κ) : (t.modifyWatcher w f).watchers.size = t.watchers.size := by
  simp [modifyWatcher]

@[simp] lemma watcher?_modifyScope (t : Tree κ σ) (s : ScopeId) (f : Scope → Scope)
    (w : WatcherId) : (t.modifyScope s f).watcher? w = t.watcher? w := rfl

@[simp] lemma scope_modifyWatcher (t : Tree κ σ) (w : WatcherId) (f : Watcher κ → Watcher κ)
    (s : ScopeId) : (t.modifyWatcher w f).scope s = t.scope s := rfl

/-- A property that a change of one scope keeps holds of all scopes after it. -/
lemma scope_modifyScope_induction {f : Scope → Scope} {P : ScopeId → Scope → Prop}
    (h : ∀ q, P q (t.scope q)) (hs : P s (f (t.scope s))) (q : ScopeId) :
    P q ((t.modifyScope s f).scope q) := by
  rw [scope_modifyScope]
  split
  · next hq =>
    rw [hq.1]
    exact hs
  · exact h q

lemma Later.modifyScope {f : Scope → Scope}
    (hf : (t.scope s).Succeeds t.scopes.size t.watchers.size (f (t.scope s))) :
    Later t (t.modifyScope s f) where
  scopes_le := by simp
  watchers_le := le_rfl
  scope q _ := scope_modifyScope_induction (P := fun q a =>
    (t.scope q).Succeeds t.scopes.size t.watchers.size a) (fun q => .refl _) hf q
  fresh q hq w hw := by
    rw [scope_of_size_le (by simpa using hq)] at hw
    cases hw
  watcher _ watcher hw := ⟨watcher, hw, .of_static rfl⟩

lemma Later.modifyWatcher {f : Watcher κ → Watcher κ}
    (hf : ∀ watcher, t.watcher? w = some watcher → watcher.Succeeds (f watcher)) :
    Later t (t.modifyWatcher w f) where
  scopes_le := le_rfl
  watchers_le := by simp
  scope q _ := .refl _
  fresh q hq w hw := by
    rw [scope_modifyWatcher, scope_of_size_le hq] at hw
    cases hw
  watcher q watcher hq := by
    by_cases hw : q = w
    · subst hw
      exact ⟨f watcher, by rw [watcher?_modifyWatcher_self, hq]; rfl, hf watcher hq⟩
    · exact ⟨watcher, by rw [watcher?_modifyWatcher_of_ne hw, hq], .of_static rfl⟩

/-- A change of a scope that leaves its parent, its children and its watchers alone keeps
soundness. -/
lemma Sound.modifyScope (h : t.Sound) {f : Scope → Scope}
    (hparent : ∀ a, (f a).parent = a.parent)
    (hchildren : (f (t.scope s)).children.Sublist (t.scope s).children)
    (hwatchers : (f (t.scope s)).watchers.Sublist (t.scope s).watchers) :
    (t.modifyScope s f).Sound := by
  have hc : ∀ q, ((t.modifyScope s f).scope q).children.Sublist (t.scope q).children :=
    scope_modifyScope_induction (P := fun q a => a.children.Sublist (t.scope q).children)
      (fun q => .refl _) hchildren
  have hw : ∀ q, ((t.modifyScope s f).scope q).watchers.Sublist (t.scope q).watchers :=
    scope_modifyScope_induction (P := fun q a => a.watchers.Sublist (t.scope q).watchers)
      (fun q => .refl _) hwatchers
  have hp : ∀ q, ((t.modifyScope s f).scope q).parent = (t.scope q).parent :=
    scope_modifyScope_induction (P := fun q a => a.parent = (t.scope q).parent)
      (fun q => rfl) (hparent _)
  refine ⟨fun {p c} hpc => ?_, fun p => (h.children_sorted p).sublist (hc p),
    fun {s w} hsw => h.listed ((hw s).subset hsw), fun s => (h.watchers_sorted s).sublist (hw s)⟩
  obtain ⟨hlt, hsize, hparent⟩ := h.child ((hc p).subset hpc)
  exact ⟨hlt, by simpa using hsize, (hp c).trans hparent⟩

/-! ## Event listeners -/

/-- The frame does not see a change of the event listeners of a scope. -/
lemma frame_modifyScope {f : Scope → Scope} (hf : ∀ a, (f a).static = a.static) :
    (t.modifyScope s f).frame = t.frame := by
  have hs : (t.scopes.modify s f).map Scope.static = t.scopes.map Scope.static := by
    apply Array.ext_getElem?
    intro i
    rw [Array.getElem?_map, Array.getElem?_map, Array.getElem?_modify]
    split
    · next hi =>
      subst hi
      cases ht : t.scopes[s]? with
      | none => rfl
      | some a => simp [hf a]
    · rfl
  simp only [frame, Tree.modifyScope, hs]

lemma frame_addListener (t : Tree κ σ) (s : ScopeId) (event : String) (procedure : κ) :
    (t.addListener s event procedure).2.frame = t.frame := by
  refine frame_modifyScope (t := t) (s := s) (f := (·.addListener t.listeners.size)) fun a => ?_
  unfold Scope.addListener
  split <;> rfl

lemma frame_removeListener (t : Tree κ σ) (l : ListenerId) :
    (t.removeListener l).frame = t.frame := by
  unfold removeListener
  cases t.listeners[l]? with
  | none => rfl
  | some listener =>
    exact frame_modifyScope (t := t) (s := listener.scope) (f := (·.removeListener l)) fun _ => rfl

/-! ## New watchers -/

lemma scope_addWatcher (t : Tree κ σ) (s : ScopeId) (kind : WatchKind κ) (byValue : Bool)
    (q : ScopeId) : (t.addWatcher s kind byValue).2.scope q =
      (t.modifyScope s (·.addWatcher t.watchers.size)).scope q := rfl

lemma watcher?_addWatcher_of_lt (kind : WatchKind κ) (byValue : Bool)
    (h : w < t.watchers.size) : (t.addWatcher s kind byValue).2.watcher? w = t.watcher? w := by
  simp [addWatcher, watcher?, Array.getElem?_push_lt h, Array.getElem?_eq_getElem h]

lemma watcher?_addWatcher_self (t : Tree κ σ) (s : ScopeId) (kind : WatchKind κ)
    (byValue : Bool) : (t.addWatcher s kind byValue).2.watcher? t.watchers.size =
      some { scope := s, kind, byValue } := by
  simp [addWatcher, watcher?]

lemma succeeds_addWatcher (m : ℕ) (a : Scope) (w : WatcherId) :
    a.Succeeds m w (a.addWatcher w) := by
  unfold Scope.addWatcher
  split
  · exact .refl a
  · refine ⟨rfl, rfl, rfl, le_rfl, List.filter_sublist, ?_⟩
    rw [List.filter_cons_of_neg (by simp)]
    exact List.filter_sublist

lemma later_addWatcher (t : Tree κ σ) (s : ScopeId) (kind : WatchKind κ) (byValue : Bool) :
    Later t (t.addWatcher s kind byValue).2 where
  scopes_le := by simp [addWatcher, Tree.modifyScope]
  watchers_le := by simp [addWatcher]
  scope q hq := (Later.modifyScope (succeeds_addWatcher _ _ _)).scope q hq
  fresh q hq := (Later.modifyScope (succeeds_addWatcher _ _ _)).fresh q hq
  watcher w watcher hw := by
    refine ⟨watcher, ?_, .of_static rfl⟩
    rw [watcher?_addWatcher_of_lt kind byValue (lt_size_of_watcher? hw), hw]

lemma mem_watchers_addWatcher {a : Scope} {v : WatcherId} (h : v ∈ (a.addWatcher w).watchers) :
    v = w ∨ v ∈ a.watchers := by
  unfold Scope.addWatcher at h
  split at h
  · exact .inr h
  · exact List.mem_cons.1 h

lemma Sound.addWatcher (h : t.Sound) (s : ScopeId) (kind : WatchKind κ) (byValue : Bool) :
    (t.addWatcher s kind byValue).2.Sound where
  child {p c} hpc := by
    have hsame : ∀ q, ((t.addWatcher s kind byValue).2.scope q).children = (t.scope q).children ∧
        ((t.addWatcher s kind byValue).2.scope q).parent = (t.scope q).parent := by
      refine scope_modifyScope_induction (P := fun q a => a.children = (t.scope q).children ∧
        a.parent = (t.scope q).parent) (fun q => ⟨rfl, rfl⟩) ?_
      unfold Scope.addWatcher
      split <;> exact ⟨rfl, rfl⟩
    rw [(hsame p).1] at hpc
    obtain ⟨hlt, hsize, hparent⟩ := h.child hpc
    exact ⟨hlt, by simpa [Tree.addWatcher, Tree.modifyScope] using hsize,
      (hsame c).2.trans hparent⟩
  children_sorted := by
    refine scope_modifyScope_induction (P := fun q a => a.children.Pairwise (· < ·))
      h.children_sorted ?_
    unfold Scope.addWatcher
    split <;> exact h.children_sorted s
  listed {q w} hw := by
    rw [scope_addWatcher, scope_modifyScope] at hw
    have hcases : w = t.watchers.size ∧ q = s ∨ w ∈ (t.scope q).watchers := by
      split at hw
      · next hq =>
        rw [hq.1]
        exact (mem_watchers_addWatcher hw).imp_left fun hw => ⟨hw, rfl⟩
      · exact .inr hw
    rcases hcases with ⟨rfl, rfl⟩ | hold
    · exact ⟨_, watcher?_addWatcher_self t q kind byValue, rfl, rfl⟩
    · rw [watcher?_addWatcher_of_lt kind byValue (h.lt_size_of_mem_watchers hold)]
      exact h.listed hold
  watchers_sorted := by
    refine scope_modifyScope_induction (P := fun q a => a.watchers.Pairwise (· > ·))
      h.watchers_sorted ?_
    unfold Scope.addWatcher
    split
    · exact h.watchers_sorted s
    · exact List.pairwise_cons.2
        ⟨fun v hv => h.lt_size_of_mem_watchers hv, h.watchers_sorted s⟩

/-! ## Watchers taken away -/

/-- What there is to know about a tree that a watcher was taken from. -/
lemma removeWatcher_cases (t : Tree κ σ) (w : WatcherId) :
    t.removeWatcher w = t ∨
      ∃ watcher, t.watcher? w = some watcher ∧
        (w ∉ (t.scope watcher.scope).watchers ∧
            t.removeWatcher w = t.modifyWatcher w ({ · with active := false }) ∨
          w ∈ (t.scope watcher.scope).watchers ∧
            t.removeWatcher w =
              { (t.modifyWatcher w ({ · with active := false })).modifyScope watcher.scope
                  (·.removeWatcher w) with lastDirty := none }) := by
  unfold removeWatcher
  cases hw : t.watcher? w with
  | none => exact .inl rfl
  | some watcher =>
    refine .inr ⟨watcher, rfl, ?_⟩
    by_cases hmem : w ∈ (t.scope watcher.scope).watchers
    · exact .inr ⟨hmem, by simp [hmem]⟩
    · exact .inl ⟨hmem, by simp [hmem]⟩

lemma watcher?_removeWatcher_self (t : Tree κ σ) (w : WatcherId) :
    (t.removeWatcher w).watcher? w = (t.watcher? w).map ({ · with active := false }) := by
  have hself := watcher?_modifyWatcher_self (t := t) (w := w) ({ · with active := false })
  unfold removeWatcher
  cases hw : t.watcher? w with
  | none => rw [hw]; rfl
  | some watcher =>
    rw [hw] at hself
    dsimp only
    split <;> exact hself

lemma later_deactivate (t : Tree κ σ) (w : WatcherId) :
    Later t (t.modifyWatcher w ({ · with active := false })) :=
  .modifyWatcher fun _ _ => ⟨rfl, rfl, rfl, fun h => nomatch h⟩

lemma later_removeWatcher (t : Tree κ σ) (w : WatcherId) : Later t (t.removeWatcher w) := by
  rcases removeWatcher_cases t w with h | ⟨watcher, -, ⟨-, h⟩ | ⟨-, h⟩⟩
  · rw [h]
    exact .refl t
  · rw [h]
    exact later_deactivate t w
  · rw [h]
    have hscope : Later _ ((t.modifyWatcher w ({ · with active := false })).modifyScope
        watcher.scope (·.removeWatcher w)) :=
      .modifyScope ⟨rfl, rfl, rfl, le_rfl, List.filter_sublist,
        List.filter_sublist.trans List.filter_sublist⟩
    exact (later_deactivate t w).trans ⟨hscope.1, hscope.2, hscope.3, hscope.4, hscope.5⟩

/-- A watcher that no scope lists may be inactive. -/
lemma Sound.deactivate (h : t.Sound) (hw : ∀ s, w ∉ (t.scope s).watchers) :
    (t.modifyWatcher w ({ · with active := false })).Sound where
  child := h.child
  children_sorted := h.children_sorted
  listed {s v} hv := by
    obtain ⟨watcher, hwatcher, hlisted⟩ := h.listed hv
    have hne : v ≠ w := fun hvw => hw s (hvw ▸ hv)
    exact ⟨watcher, (watcher?_modifyWatcher_of_ne hne _).trans hwatcher, hlisted⟩
  watchers_sorted := h.watchers_sorted

lemma Sound.removeWatcher (h : t.Sound) (w : WatcherId) : (t.removeWatcher w).Sound := by
  rcases removeWatcher_cases t w with heq | ⟨watcher, hw, ⟨hmem, heq⟩ | ⟨hmem, heq⟩⟩
  · rw [heq]
    exact h
  · have hout : ∀ s, w ∉ (t.scope s).watchers := by
      intro s hs
      obtain ⟨watcher', hw', rfl, -⟩ := h.listed hs
      cases hw.symm.trans hw'
      exact hmem hs
    rw [heq]
    exact h.deactivate hout
  · have hlisted : (t.modifyScope watcher.scope (·.removeWatcher w)).Sound :=
      h.modifyScope (fun _ => rfl) (.refl _) List.filter_sublist
    have hout : ∀ s, w ∉ ((t.modifyScope watcher.scope (·.removeWatcher w)).scope s).watchers := by
      intro s hs
      rw [scope_modifyScope] at hs
      split at hs
      · simp [Scope.removeWatcher] at hs
      · next hne =>
        have hscope := h.scope_unique hs hmem
        subst hscope
        exact hne ⟨rfl, scope_lt_of_mem_watchers hmem⟩
    have hsound := hlisted.deactivate hout
    rw [heq]
    exact ⟨hsound.child, hsound.children_sorted, hsound.listed, hsound.watchers_sorted⟩

/-! ## New scopes -/

lemma scope_newScope_of_lt {q : ScopeId} (isolated : Bool) (parent : ScopeId)
    (h : q < t.scopes.size) : (t.newScope s isolated parent).2.scope q =
      (t.modifyScope parent (·.addChild t.scopes.size)).scope q := by
  have hq : q < (t.modifyScope parent (·.addChild t.scopes.size)).scopes.size := by simpa using h
  rw [scope_of_lt_size hq]
  simp [newScope, scope, Array.getElem?_push_lt hq]

lemma scope_newScope_self (t : Tree κ σ) (s : ScopeId) (isolated : Bool) (parent : ScopeId) :
    ∃ data, (t.newScope s isolated parent).2.scope t.scopes.size =
      { data, parent := some parent, isolated } := by
  refine ⟨(t.store.heap.newObject .empty (if isolated then none else some (t.data s))).1, ?_⟩
  simp only [newScope, scope]
  rw [Array.getElem?_push, if_pos (by simp)]
  rfl

lemma size_scopes_newScope (t : Tree κ σ) (s : ScopeId) (isolated : Bool) (parent : ScopeId) :
    (t.newScope s isolated parent).2.scopes.size = t.scopes.size + 1 := by
  simp [newScope]

lemma later_newScope (t : Tree κ σ) (s : ScopeId) (isolated : Bool) (parent : ScopeId) :
    Later t (t.newScope s isolated parent).2 where
  scopes_le := by simp [size_scopes_newScope]
  watchers_le := le_rfl
  scope q hq := by
    rw [scope_newScope_of_lt isolated parent hq]
    refine (Later.modifyScope ⟨rfl, rfl, rfl, le_rfl, ?_, List.filter_sublist⟩).scope q hq
    simp only [Scope.addChild, List.filter_append]
    rw [List.filter_cons_of_neg (by simp), List.filter_nil, List.append_nil]
    exact List.filter_sublist
  fresh q hq w hw := by
    have hnew : ((t.newScope s isolated parent).2.scope q).watchers = [] := by
      rcases hq.lt_or_eq with hlt | rfl
      · rw [scope_of_size_le]
        rw [size_scopes_newScope]
        exact hlt
      · obtain ⟨data, hself⟩ := scope_newScope_self t s isolated parent
        rw [hself]
    rw [hnew] at hw
    cases hw
  watcher _ watcher hw := ⟨watcher, hw, .of_static rfl⟩

/-- A scope of the new tree is the new one, or an old one, perhaps with the new one as its last
child. -/
lemma scope_newScope_cases (t : Tree κ σ) (s : ScopeId) (isolated : Bool) (parent q : ScopeId) :
    (∃ data, q = t.scopes.size ∧ (t.newScope s isolated parent).2.scope q =
        { data, parent := some parent, isolated }) ∨
      (t.newScope s isolated parent).2.scope q = t.scope q ∨
      q = parent ∧ q < t.scopes.size ∧
        (t.newScope s isolated parent).2.scope q = (t.scope q).addChild t.scopes.size := by
  rcases lt_trichotomy q t.scopes.size with hlt | rfl | hgt
  · rw [scope_newScope_of_lt isolated parent hlt, scope_modifyScope]
    split
    · next h =>
      obtain ⟨rfl, -⟩ := h
      exact .inr (.inr ⟨rfl, hlt, rfl⟩)
    · exact .inr (.inl rfl)
  · obtain ⟨data, h⟩ := scope_newScope_self t s isolated parent
    exact .inl ⟨data, rfl, h⟩
  · refine .inr (.inl ?_)
    rw [scope_of_size_le hgt.le, scope_of_size_le]
    rw [size_scopes_newScope]
    exact hgt

lemma Sound.newScope (h : t.Sound) (s : ScopeId) (isolated : Bool) (parent : ScopeId) :
    (t.newScope s isolated parent).2.Sound where
  child {p c} hpc := by
    rw [size_scopes_newScope]
    rcases scope_newScope_cases t s isolated parent p with ⟨data, -, hp⟩ | hp | ⟨rfl, hlt, hp⟩
    · rw [hp] at hpc
      cases hpc
    · rw [hp] at hpc
      obtain ⟨hlt, hsize, hparent⟩ := h.child hpc
      refine ⟨hlt, hsize.trans (Nat.lt_succ_self _), ?_⟩
      exact ((later_newScope t s isolated parent).scope c hsize).parent.trans hparent
    · rw [hp, Scope.addChild, List.mem_append, List.mem_singleton] at hpc
      rcases hpc with hpc | rfl
      · obtain ⟨hlt, hsize, hparent⟩ := h.child hpc
        refine ⟨hlt, hsize.trans (Nat.lt_succ_self _), ?_⟩
        exact ((later_newScope t s isolated p).scope c hsize).parent.trans hparent
      · obtain ⟨data, hself⟩ := scope_newScope_self t s isolated p
        exact ⟨hlt, Nat.lt_succ_self _, by rw [hself]⟩
  children_sorted p := by
    rcases scope_newScope_cases t s isolated parent p with ⟨data, -, hp⟩ | hp | ⟨-, -, hp⟩
    · rw [hp]
      exact .nil
    · rw [hp]
      exact h.children_sorted p
    · rw [hp, Scope.addChild]
      refine List.pairwise_append.2 ⟨h.children_sorted p, List.pairwise_singleton _ _, ?_⟩
      intro c hc d hd
      rw [List.mem_singleton.1 hd]
      exact (h.child hc).2.1
  listed {q w} hw := by
    have hold : w ∈ (t.scope q).watchers := by
      rcases scope_newScope_cases t s isolated parent q with ⟨data, -, hq⟩ | hq | ⟨-, -, hq⟩
      · rw [hq] at hw
        cases hw
      · rwa [hq] at hw
      · rwa [hq] at hw
    exact h.listed hold
  watchers_sorted q := by
    rcases scope_newScope_cases t s isolated parent q with ⟨data, -, hq⟩ | hq | ⟨-, -, hq⟩
    · rw [hq]
      exact .nil
    · rw [hq]
      exact h.watchers_sorted q
    · rw [hq]
      exact h.watchers_sorted q

/-! ## Destruction -/

lemma later_beginDestroy (h : (t.scope s).isDestroyed = false) : Later t (t.beginDestroy s) := by
  have halive : (t.scope s).life = .alive := by simpa [Scope.isDestroyed] using h
  exact .modifyScope ⟨rfl, rfl, rfl, by simp [halive, Life.rank], List.filter_sublist,
    List.filter_sublist⟩

lemma Sound.beginDestroy (h : t.Sound) (s : ScopeId) : (t.beginDestroy s).Sound :=
  h.modifyScope (fun _ => rfl) (.refl _) (.refl _)

/-- A scope is torn down in two changes: it leaves its parent, and it loses what it has. -/
lemma tearDown_eq (t : Tree κ σ) (s : ScopeId) :
    ∃ u : Tree κ σ, (u = t ∨ ∃ p, u = t.modifyScope p (·.removeChild s)) ∧
      t.tearDown s = { u.modifyScope s (·.tornDown) with lastDirty := none } := by
  unfold tearDown
  cases (t.scope s).parent with
  | none => exact ⟨t, .inl rfl, rfl⟩
  | some p => exact ⟨_, .inr ⟨p, rfl⟩, rfl⟩

/-- The end of a destruction changes the scopes at most, and forgets the mark. -/
lemma tearDown_eq_scopes (t : Tree κ σ) (s : ScopeId) :
    ∃ scopes, t.tearDown s = { t with scopes, lastDirty := none } := by
  obtain ⟨u, rfl | ⟨p, rfl⟩, heq⟩ := tearDown_eq t s <;> exact ⟨_, heq⟩

lemma later_tearDown (t : Tree κ σ) (s : ScopeId) : Later t (t.tearDown s) := by
  obtain ⟨u, hu, heq⟩ := tearDown_eq t s
  have htu : Later t u := by
    rcases hu with rfl | ⟨p, rfl⟩
    · exact .refl u
    · exact .modifyScope ⟨rfl, rfl, rfl, le_rfl, List.filter_sublist.trans List.filter_sublist,
        List.filter_sublist⟩
  have hscope : Later u (u.modifyScope s (·.tornDown)) := by
    refine .modifyScope ⟨rfl, rfl, rfl, ?_, List.filter_sublist, List.nil_sublist _⟩
    show (u.scope s).life.rank ≤ Life.gone.rank
    cases (u.scope s).life <;> decide
  rw [heq]
  exact htu.trans ⟨hscope.1, hscope.2, hscope.3, hscope.4, hscope.5⟩

lemma Sound.tearDown (h : t.Sound) (s : ScopeId) : (t.tearDown s).Sound := by
  obtain ⟨u, hu, heq⟩ := tearDown_eq t s
  have hsu : u.Sound := by
    rcases hu with rfl | ⟨p, rfl⟩
    · exact h
    · exact h.modifyScope (fun _ => rfl) List.filter_sublist (.refl _)
  have hsound := hsu.modifyScope (s := s) (f := (·.tornDown)) (fun _ => rfl) (.refl _)
    (List.nil_sublist _)
  rw [heq]
  exact ⟨hsound.child, hsound.children_sorted, hsound.listed, hsound.watchers_sorted⟩

lemma life_tearDown (h : s < t.scopes.size) : ((t.tearDown s).scope s).life = .gone := by
  obtain ⟨u, hu, heq⟩ := tearDown_eq t s
  have hsize : s < u.scopes.size := by
    rcases hu with rfl | ⟨p, rfl⟩
    · exact h
    · simpa using h
  rw [heq]
  have hscope := scope_modifyScope_self (t := u) hsize (·.tornDown)
  exact congrArg Scope.life hscope

/-! ## Planted trees -/

lemma sound_plant (store : Store σ) (compiler : Compiler) (config : Config) (timed : Bool) :
    (plant store compiler config timed : Tree κ σ).Sound := by
  have hempty : ∀ s, ((plant store compiler config timed : Tree κ σ).scope s).children = [] ∧
      ((plant store compiler config timed : Tree κ σ).scope s).watchers = [] := by
    intro s
    cases s <;> exact ⟨rfl, rfl⟩
  refine ⟨fun {p c} hc => ?_, fun p => ?_, fun {s w} hw => ?_, fun s => ?_⟩
  · rw [(hempty p).1] at hc
    cases hc
  · rw [(hempty p).1]
    exact .nil
  · rw [(hempty s).2] at hw
    cases hw
  · rw [(hempty s).2]
    exact .nil

end DataBinding.Tree
