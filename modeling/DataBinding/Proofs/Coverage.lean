import DataBinding.Proofs.Rounds
import DataBinding.Proofs.Turns

/-!
# What a walk covers

A walk goes through a tree that may change while it does.  It reads the watchers of a scope when it
comes to the scope, and the children of a scope when it has seen the watchers.  What is registered
later it misses, unless that belongs to a scope that is still ahead.

`Tree.Checked t u w` says that a watcher was checked on the way from one tree to another.
`Engine.Covers z s x ws t u f` says which watchers of the list are checked when a stretch of a walk
leads from `t` to `u` with the findings `f`.  The list is in the order of turns of a later tree `z`,
and `x` is the watcher that is marked when the stretch ends.  Watchers that were registered before
the stretch began, on scopes that were there, are checked unless the walk was ended before their
turn.  Of those that come after a watcher that was found dirty, even the ones that were registered
meanwhile are checked, if their scopes were there.

Coverage passes from visits to walks (`Engine.covers_walk`), and so a pass covers the turns of every
later tree (`Engine.covers_pass`).
-/

namespace DataBinding

open Compute (Leads runOn runOn_bind_cases)
open DataBinding.Tree (Grows InPhase Interlude)

variable {κ σ : Type}

/-! ## The order in lists -/

section Lists

variable {α β : Type} {x y : α} {l l₁ l₂ : List α}

lemma pair_sublist_append_iff : [x, y].Sublist (l₁ ++ l₂) ↔
    [x, y].Sublist l₁ ∨ (x ∈ l₁ ∧ y ∈ l₂) ∨ [x, y].Sublist l₂ := by
  constructor
  · intro h
    obtain ⟨k₁, k₂, heq, h₁, h₂⟩ := List.sublist_append_iff.1 h
    rcases List.append_eq_cons_iff.1 heq.symm with ⟨rfl, rfl⟩ | ⟨k, rfl, hk⟩
    · exact .inr (.inr h₂)
    · rcases List.append_eq_cons_iff.1 hk.symm with ⟨rfl, rfl⟩ | ⟨k', rfl, hk'⟩
      · exact .inr (.inl ⟨List.singleton_sublist.1 h₁, List.singleton_sublist.1 h₂⟩)
      · obtain ⟨rfl, rfl⟩ := List.append_eq_nil_iff.1 hk'.symm
        exact .inl h₁
  · rintro (h | ⟨hx, hy⟩ | h)
    · exact h.trans (List.sublist_append_left _ _)
    · exact (List.singleton_sublist.2 hx).append (List.singleton_sublist.2 hy)
    · exact h.trans (List.sublist_append_right _ _)

lemma pair_sublist_flatMap_iff {a b : β} {f : α → List β} : [a, b].Sublist (l.flatMap f) ↔
    (∃ x ∈ l, [a, b].Sublist (f x)) ∨ ∃ x y, [x, y].Sublist l ∧ a ∈ f x ∧ b ∈ f y := by
  constructor
  · intro h
    induction l with
    | nil => cases h
    | cons x l ih =>
      rw [List.flatMap_cons, pair_sublist_append_iff] at h
      rcases h with h | ⟨ha, hb⟩ | h
      · exact .inl ⟨x, List.mem_cons_self .., h⟩
      · obtain ⟨y, hy, hb⟩ := List.mem_flatMap.1 hb
        exact .inr ⟨x, y, (List.singleton_sublist.2 hy).cons_cons x, ha, hb⟩
      · rcases ih h with ⟨y, hy, h⟩ | ⟨y, y', hy, ha, hb⟩
        · exact .inl ⟨y, List.mem_cons_of_mem _ hy, h⟩
        · exact .inr ⟨y, y', hy.cons x, ha, hb⟩
  · rintro (⟨x, hx, h⟩ | ⟨x, y, hxy, ha, hb⟩)
    · obtain ⟨l₁, l₂, rfl⟩ := List.append_of_mem hx
      rw [List.flatMap_append, List.flatMap_cons]
      exact h.trans ((List.sublist_append_left _ _).trans (List.sublist_append_right _ _))
    · induction l with
      | nil => cases hxy
      | cons c l ih =>
        rw [List.flatMap_cons, pair_sublist_append_iff]
        cases hxy with
        | cons _ h => exact .inr (.inr (ih h))
        | cons_cons _ h =>
          exact .inr (.inl ⟨ha, List.mem_flatMap.2 ⟨y, List.singleton_sublist.1 h, hb⟩⟩)

lemma pair_sublist_append_left_iff (hy : y ∉ l₂) :
    [x, y].Sublist (l₁ ++ l₂) ↔ [x, y].Sublist l₁ := by
  rw [pair_sublist_append_iff]
  refine ⟨?_, .inl⟩
  rintro (h | ⟨-, h⟩ | h)
  · exact h
  · exact absurd h hy
  · exact absurd (h.subset (by simp)) hy

lemma pair_sublist_append_right_iff (hx : x ∉ l₁) :
    [x, y].Sublist (l₁ ++ l₂) ↔ [x, y].Sublist l₂ := by
  rw [pair_sublist_append_iff]
  refine ⟨?_, fun h => .inr (.inr h)⟩
  rintro (h | ⟨h, -⟩ | h)
  · exact absurd (h.subset (by simp)) hx
  · exact absurd h hx
  · exact h

/-- In a sorted list two elements stand in their order. -/
lemma pair_sublist_iff_of_pairwise {r : α → α → Prop} (hr : ∀ {a b}, r a b → ¬ r b a)
    (hl : l.Pairwise r) (hx : x ∈ l) (hy : y ∈ l) : [x, y].Sublist l ↔ r x y := by
  constructor
  · intro h
    have hpair := hl.sublist h
    simpa using hpair
  · intro hxy
    induction l with
    | nil => cases hx
    | cons a l ih =>
      rw [List.pairwise_cons] at hl
      rcases List.mem_cons.1 hx with rfl | hx'
      · rcases List.mem_cons.1 hy with rfl | hy
        · exact absurd hxy (hr hxy)
        · exact (List.singleton_sublist.2 hy).cons_cons x
      · rcases List.mem_cons.1 hy with rfl | hy
        · exact absurd hxy (hr (hl.1 x hx'))
        · exact (ih hl.2 hx' hy).cons a

/-- Where every element belongs to one part, the parts of a sorted list decide on the order. -/
lemma pair_sublist_flatMap_iff_of_pairwise {f : ℕ → List α} {cs : List ℕ} {c d : ℕ}
    (hcs : cs.Pairwise (· < ·)) (hc : c ∈ cs) (hd : d ∈ cs) (hx : x ∈ f c) (hy : y ∈ f d)
    (hunique : ∀ w, ∀ e ∈ cs, ∀ e' ∈ cs, w ∈ f e → w ∈ f e' → e = e') :
    [x, y].Sublist (cs.flatMap f) ↔ c = d ∧ [x, y].Sublist (f c) ∨ c < d := by
  have horder := fun {e e' : ℕ} he he' => pair_sublist_iff_of_pairwise (x := e) (y := e')
    (fun h => Nat.lt_asymm h) hcs he he'
  rw [pair_sublist_flatMap_iff]
  constructor
  · rintro (⟨e, he, h⟩ | ⟨e, e', hee', hxe, hye'⟩)
    · cases hunique x c hc e he hx (h.subset (by simp))
      cases hunique y c he d hd (h.subset (by simp)) hy
      exact .inl ⟨rfl, h⟩
    · cases hunique x c hc e (hee'.subset (by simp)) hx hxe
      cases hunique y d hd e' (hee'.subset (by simp)) hy hye'
      exact .inr ((horder hc hd).1 hee')
  · rintro (⟨rfl, h⟩ | hcd)
    · exact .inl ⟨c, hc, h⟩
    · exact .inr ⟨c, d, (horder hc hd).2 hcd, hx, hy⟩

end Lists

namespace Tree

variable {t u v z : Tree κ σ} {w : WatcherId}

/-! ## Checks -/

/-- The watcher was checked on the way from the first tree to the second. -/
def Checked (t u : Tree κ σ) (w : WatcherId) : Prop :=
  ∃ steps, u.journal = steps ++ t.journal ∧ Step.checked w ∈ steps

/-- No watcher was checked on the way from the first tree to the second. -/
def Unchecked (t u : Tree κ σ) : Prop :=
  ∃ steps, u.journal = steps ++ t.journal ∧ ∀ w, Step.checked w ∉ steps

namespace Checked

lemma before (h : Checked v u w) (hv : t.journal <:+ v.journal) : Checked t u w := by
  obtain ⟨steps, heq, hmem⟩ := h
  obtain ⟨first, hfirst⟩ := hv
  refine ⟨steps ++ first, ?_, List.mem_append_left _ hmem⟩
  rw [heq, ← hfirst, List.append_assoc]

lemma after (h : Checked t v w) (hu : v.journal <:+ u.journal) : Checked t u w := by
  obtain ⟨steps, heq, hmem⟩ := h
  obtain ⟨last, hlast⟩ := hu
  refine ⟨last ++ steps, ?_, List.mem_append_right _ hmem⟩
  rw [← hlast, heq, List.append_assoc]

/-- What was checked on the way was checked on one of its parts. -/
lemma split (h : Checked t u w) (hv : t.journal <:+ v.journal) (hu : v.journal <:+ u.journal) :
    Checked t v w ∨ Checked v u w := by
  obtain ⟨steps, heq, hmem⟩ := h
  obtain ⟨first, hfirst⟩ := hv
  obtain ⟨last, hlast⟩ := hu
  have hsteps : steps = last ++ first := by
    have hall : steps ++ t.journal = (last ++ first) ++ t.journal := by
      rw [← heq, ← hlast, ← hfirst, List.append_assoc]
    exact List.append_cancel_right hall
  rw [hsteps, List.mem_append] at hmem
  rcases hmem with hmem | hmem
  · exact .inr ⟨last, hlast.symm, hmem⟩
  · exact .inl ⟨first, hfirst.symm, hmem⟩

end Checked

namespace Unchecked

lemma of_journal (h : u.journal = t.journal) : Unchecked t u := ⟨[], h, fun _ hw => nomatch hw⟩

lemma of_step {step : Step κ} (h : u.journal = step :: t.journal)
    (hstep : ∀ w, step ≠ .checked w) : Unchecked t u :=
  ⟨[step], h, fun w hw => hstep w (List.mem_singleton.1 hw).symm⟩

lemma not_checked (h : Unchecked t u) (w : WatcherId) : ¬ Checked t u w := by
  rintro ⟨steps, heq, hmem⟩
  obtain ⟨steps', heq', hnone⟩ := h
  cases List.append_cancel_right (heq.symm.trans heq')
  exact hnone w hmem

lemma journal (h : Unchecked t u) : t.journal <:+ u.journal := by
  obtain ⟨steps, heq, -⟩ := h
  exact ⟨steps, heq.symm⟩

end Unchecked

/-- What was checked was checked later, if nothing was at first. -/
lemma Unchecked.checked_iff (h : Unchecked t v) (hu : v.journal <:+ u.journal) :
    Checked t u w ↔ Checked v u w := by
  refine ⟨fun hw => ?_, fun hw => hw.before h.journal⟩
  exact (hw.split h.journal hu).resolve_left (h.not_checked w)

instance : IsPreorder (Tree κ σ) Unchecked where
  refl _ := .of_journal rfl
  trans _ _ _ := by
    rintro ⟨steps, heq, hnone⟩ ⟨steps', heq', hnone'⟩
    refine ⟨steps' ++ steps, ?_, fun w hw => ?_⟩
    · rw [heq', heq, List.append_assoc]
    · exact (List.mem_append.1 hw).elim (hnone' w) (hnone w)

lemma Act.unchecked (h : Act t u) : Unchecked t u := by
  rcases h.journal with h | ⟨step, hstep, h⟩
  · exact .of_journal h
  · refine .of_step h fun w hw => ?_
    rw [hw] at hstep
    cases hstep

lemma Tick.unchecked (h : Tick t u) : Unchecked t u := by
  rcases h.journal with h | ⟨job, h⟩
  · exact .of_journal h
  · refine .of_step h fun w hw => ?_
    cases hw

/-- Requests and reactions check nothing. -/
lemma observes_unchecked : Observes (Unchecked (κ := κ) (σ := σ)) where
  toAdmits := .of_changes Act.unchecked (fun _ _ => .of_journal rfl) fun t s =>
    .of_journal (journal_tearDown t s)
  tick h := h.unchecked
  setKind _ _ := .of_journal rfl
  record h := by
    obtain ⟨_, _, rfl⟩ := eq_of_record h
    exact .of_journal rfl

/-- Tasks check nothing. -/
lemma drains_unchecked : Drains (Unchecked (κ := κ) (σ := σ)) where
  toDefers := observes_unchecked.toDefers
  dequeue {t u q task} h := by
    obtain ⟨_, rfl⟩ := eq_of_dequeue? h
    exact .of_step rfl fun _ h => nomatch h

/-- What is certain of every stretch of a digest: only watchers that there were have been
checked. -/
structure Surveyed (t u : Tree κ σ) : Prop extends Grows t u where
  journal : t.journal <:+ u.journal
  known : ∀ w, Checked t u w → w < u.watchers.size

lemma Surveyed.of_unchecked (hgrows : Grows t u) (h : Unchecked t u) : Surveyed t u where
  toGrows := hgrows
  journal := h.journal
  known w hw := absurd hw (h.not_checked w)

instance : IsPreorder (Tree κ σ) Surveyed where
  refl t := .of_unchecked (refl_of Grows t) (refl_of Unchecked t)
  trans _ _ _ h₁ h₂ := {
    toGrows := trans_of Grows h₁.toGrows h₂.toGrows
    journal := h₁.journal.trans h₂.journal
    known := fun w hw => by
      rcases hw.split h₁.journal h₂.journal with hw | hw
      · exact (h₁.known w hw).trans_le h₂.later.watchers_le
      · exact h₂.known w hw }

/-! ## Homes -/

/-- The scope on which a watcher was registered. -/
def home (t : Tree κ σ) (w : WatcherId) : ScopeId := ((t.watcher? w).map (·.scope)).getD rootId

lemma lt_size_of_isActive (h : t.isActive w = true) : w < t.watchers.size := by
  by_contra hw
  have hnone : t.watcher? w = none := Array.getElem?_eq_none (not_lt.1 hw)
  rw [isActive, hnone] at h
  cases h

namespace Sound

lemma home_eq (h : t.Sound) {b : ScopeId} (hw : w ∈ (t.scope b).watchers) : t.home w = b := by
  obtain ⟨watcher, hwatcher, rfl, -⟩ := h.listed hw
  simp [home, hwatcher]

/-- A watcher that has a turn is listed at its home. -/
lemma mem_watchers_home (h : t.Sound) {s : ScopeId} (hw : w ∈ t.turns s) :
    t.Under s (t.home w) ∧ w ∈ (t.scope (t.home w)).watchers := by
  obtain ⟨b, hsb, hb⟩ := h.mem_turns.1 hw
  rw [h.home_eq hb]
  exact ⟨hsb, hb⟩

/-- No watcher has a turn with each of two scopes that have the same parent. -/
lemma eq_of_mem_turns (h : t.Sound) {a c d : ScopeId} (hac : a < c) (had : a < d)
    (hc : (t.scope c).parent = some a) (hd : (t.scope d).parent = some a) (hwc : w ∈ t.turns c)
    (hwd : w ∈ t.turns d) : c = d :=
  h.eq_of_under_siblings hac had hc hd (h.mem_watchers_home hwc).1 (h.mem_watchers_home hwd).1

end Sound

namespace Later

lemma home_eq (h : Later t z) (hw : w < t.watchers.size) : z.home w = t.home w := by
  have hsome : t.watcher? w = some t.watchers[w] := Array.getElem?_eq_getElem hw
  obtain ⟨watcher', hz, hsucceeds⟩ := h.watcher w _ hsome
  simp [home, hz, hsome, hsucceeds.scope]

/-- A watcher that is active later is active now. -/
lemma isActive (h : Later t z) (hw : w < t.watchers.size) (hactive : z.isActive w = true) :
    t.isActive w = true := by
  have hsome : t.watcher? w = some t.watchers[w] := Array.getElem?_eq_getElem hw
  obtain ⟨watcher', hz, hsucceeds⟩ := h.watcher w _ hsome
  simp only [Tree.isActive, hz, hsome, Option.any_some] at hactive ⊢
  exact hsucceeds.active hactive

/-- A watcher from before that a scope from before lists now was listed there before. -/
lemma mem_watchers (h : Later t z) {b : ScopeId} (hb : b < t.scopes.size)
    (hw : w < t.watchers.size) (hmem : w ∈ (z.scope b).watchers) : w ∈ (t.scope b).watchers :=
  (h.scope b hb).watchers.subset (List.mem_filter.2 ⟨hmem, decide_eq_true hw⟩)

/-- A child from before that a scope from before has now was a child of it before. -/
lemma mem_children (h : Later t z) {b c : ScopeId} (hb : b < t.scopes.size)
    (hc : c < t.scopes.size) (hmem : c ∈ (z.scope b).children) : c ∈ (t.scope b).children :=
  (h.scope b hb).children.subset (List.mem_filter.2 ⟨hmem, decide_eq_true hc⟩)

/-- A watcher from before that has a turn has its home among the scopes from before. -/
lemma home_lt (h : Later t z) (hz : z.Sound) {s : ScopeId} (hw : w < t.watchers.size)
    (hturn : w ∈ z.turns s) : z.home w < t.scopes.size := by
  by_contra hhome
  have hfresh := h.fresh _ (not_lt.1 hhome) w (hz.mem_watchers_home hturn).2
  exact absurd hw (not_lt.2 hfresh)

/-- A child keeps its parent. -/
lemma parent_eq (h : Later t z) (ht : t.Sound) {a c : ScopeId} (hc : c ∈ (t.scope a).children) :
    a < c ∧ (z.scope c).parent = some a := by
  obtain ⟨hac, hsize, hparent⟩ := ht.child hc
  exact ⟨hac, (h.scope c hsize).parent.trans hparent⟩

end Later

/-- A child that is still above a watcher with a turn is still a child. -/
lemma Later.mem_children_of_turns (h : Later t z) (ht : t.Sound) (hz : z.Sound) {s a c : ScopeId}
    (hsa : s ≤ a) (hc : c ∈ (t.scope a).children) (hs : w ∈ z.turns s) (hw : w ∈ z.turns c) :
    c ∈ (z.scope a).children := by
  obtain ⟨hac, hparent⟩ := h.parent_eq ht hc
  rcases hz.under_total (hz.mem_watchers_home hs).1 (hz.mem_watchers_home hw).1 with hsc | hcs
  · rcases Relation.ReflTransGen.cases_tail hsc with rfl | ⟨q, -, hq⟩
    · exact absurd hsa (not_le.2 hac)
    · have haq : some a = some q := hparent.symm.trans (hz.child hq).2.2
      cases haq
      exact hq
  · exact absurd ((hz.le_of_under hcs).trans hsa) (not_le.2 hac)

/-- The watcher is marked and has a turn in a later tree. -/
def Marks (u z : Tree κ σ) (s : ScopeId) (x : WatcherId) : Prop :=
  u.lastDirty = some x ∧ x ∈ z.turns s

end Tree

namespace Engine

open DataBinding.Tree (Checked Unchecked Surveyed Later Marks)

variable {E : Engine κ σ} {t u v z : Tree κ σ} {w x : WatcherId} {s a : ScopeId} {phase : Phase}
  {f f₁ f₂ : Findings} {ws ws' ws₁ ws₂ : List WatcherId}

/-! ## Visits -/

/-- What is certain of a visit to a watcher with these findings. -/
structure Visited (t u : Tree κ σ) (w : WatcherId) (f : Findings) : Prop where
  grows : Grows t u
  journal : t.journal <:+ u.journal
  checked : t.isActive w = true → Checked t u w
  only : ∀ q, Checked t u q → q = w ∧ w < t.watchers.size
  quiet : f.dirty = false → Interlude t u
  marked : f.dirty = true → f.ended = false ∧ (u.lastDirty = none ∨ u.lastDirty = some w)
  ended : f.ended = true → u.lastDirty = some w

/-- What was checked, if nothing else was since the check of this watcher was noted. -/
lemma checked_iff_of_noted (h : Unchecked (t.note (.checked w)) u) {q : WatcherId} :
    Checked t u q ↔ q = w := by
  have hnote : ∀ {q}, Checked t (t.note (.checked w)) q ↔ q = w := by
    intro q
    constructor
    · rintro ⟨steps, heq, hmem⟩
      have hall : [Step.checked w] ++ t.journal = steps ++ t.journal := heq
      have hsteps : [Step.checked w] = steps := List.append_cancel_right hall
      rw [← hsteps, List.mem_singleton] at hmem
      cases hmem
      rfl
    · rintro rfl
      exact ⟨[.checked q], rfl, List.mem_singleton_self _⟩
  rw [← hnote]
  refine ⟨fun hq => ?_, fun hq => hq.after h.journal⟩
  exact (hq.split (List.suffix_cons _ _) h.journal).resolve_right (h.not_checked q)

section Governed

variable (hE : E.Governed)

include hE

lemma visited_of_visitWatcher {r : Except Error Findings} (hphase : t.phase = some phase)
    (h : runOn (E.visitWatcher w) t = some (r, u)) : ∃ f, r = .ok f ∧ Visited t u w f := by
  rcases visitWatcher_cases h with ⟨hactive, rfl, rfl⟩ | ⟨hactive, result, v, hcheck, hrest⟩
  · refine ⟨{}, rfl, refl_of Grows _, List.suffix_rfl, fun h => absurd h (by simp [hactive]),
      fun q hq => absurd hq ?_, fun _ => refl_of Interlude _, fun h => (nomatch h),
      fun h => (nomatch h)⟩
    exact (refl_of Unchecked u).not_checked q
  have hcall := hE.inPhase Tree.observes_unchecked.toDefers
  have hsize := Tree.lt_size_of_isActive hactive
  obtain ⟨hvphase, htv⟩ := interlude_check hE w hcheck phase hphase
  have hnoted := (related_check Tree.observes_unchecked.inPhase.notices hcall hcheck phase hphase).2
  rcases hrest with ⟨e, -, rfl, hreport⟩ | ⟨-, rfl, rfl⟩ | ⟨change, -, rfl, hnotify⟩
  · have hvu := (leads_reportError Tree.watches_interlude.inPhase.toAdmits.grants e hreport
      phase hvphase).2
    have hvu' := (leads_reportError Tree.observes_unchecked.inPhase.toAdmits.grants e
      hreport phase hvphase).2
    have htu := trans_of Interlude htv hvu
    have hchecked := fun {q} => checked_iff_of_noted (q := q) (trans_of Unchecked hnoted hvu')
    exact ⟨_, rfl, htu.toGrows, htu.journal, fun _ => hchecked.2 rfl,
      fun q hq => ⟨hchecked.1 hq, hsize⟩, fun _ => htu, fun h => (nomatch h), fun h => (nomatch h)⟩
  · have hchecked := fun {q} => checked_iff_of_noted (q := q) hnoted
    exact ⟨_, rfl, htv.toGrows, htv.journal, fun _ => hchecked.2 rfl,
      fun q hq => ⟨hchecked.1 hq, hsize⟩, fun _ => htv, fun h => (nomatch h),
      fun h => beq_iff_eq.1 h⟩
  · have hvu := (interlude_notify hE w change hnotify phase hvphase).2
    have hvu' := (leads_contained (E := E) Tree.observes_unchecked.inPhase.toAdmits.grants
      (leads_notify Tree.observes_unchecked.inPhase.notices hcall w change) hnotify phase hvphase).2
    have hmarked : Grows v { v with lastDirty := some w } := .of_frame rfl
    have hmarked' : Unchecked v { v with lastDirty := some w } := .of_journal rfl
    have hchecked := fun {q} => checked_iff_of_noted (q := q)
      (trans_of Unchecked hnoted (trans_of Unchecked hmarked' hvu'))
    exact ⟨_, rfl, trans_of Grows htv.toGrows (trans_of Grows hmarked hvu.toGrows),
      htv.journal.trans hvu.journal, fun _ => hchecked.2 rfl, fun q hq => ⟨hchecked.1 hq, hsize⟩,
      fun h => (nomatch h), fun _ => ⟨rfl, hvu.dirty.imp_right (·.1)⟩, fun h => (nomatch h)⟩

end Governed

/-! ## Stretches of a walk -/

/-- What a stretch of a walk from `t` to `u` covers of a list of watchers, which is in the order of
turns of a later tree `z`.  The watcher `x` is the one that is marked when the stretch ends. -/
structure Covers (z : Tree κ σ) (s : ScopeId) (x : WatcherId) (ws : List WatcherId)
    (t u : Tree κ σ) (f : Findings) : Prop extends Surveyed t u where
  quiet : f.dirty = false → Interlude t u
  only : ∀ w ∈ z.turns s, Checked t u w → w ∈ ws
  marked : f.dirty = true → Marks u z s x → f.ended = false ∧ x ∈ ws
  ended : f.ended = true → Marks u z s x → x ∈ ws ∧ ∀ w ∈ z.turns s, w ∈ ws →
    w < t.watchers.size → z.home w < t.scopes.size → (Checked t u w ↔ ¬ [x, w].Sublist ws)
  all : f.ended = false → ∀ w ∈ z.turns s, w ∈ ws →
    w < t.watchers.size → z.home w < t.scopes.size → Checked t u w
  behind : f.dirty = true → Marks u z s x → ∀ w ∈ z.turns s, [x, w].Sublist ws →
    z.home w < t.scopes.size → w < u.watchers.size → Checked t u w

namespace Covers

lemma of_visit (h : Visited t u w f) (hz : Later t z) (hsound : z.Sound) :
    Covers z s x [w] t u f := by
  have hpair : ∀ y, ¬ [x, y].Sublist [w] := fun y hsub => absurd hsub.length_le (by simp)
  have hchecked : ∀ y ∈ z.turns s, y ∈ [w] → y < t.watchers.size → Checked t u y := by
    intro y hturn hy hsize
    cases List.mem_singleton.1 hy
    exact h.checked (hz.isActive hsize (hsound.isActive_of_mem_turnsWithin hturn))
  exact {
    toGrows := h.grows
    journal := h.journal
    known := fun y hy => by
      obtain ⟨rfl, hsize⟩ := h.only y hy
      exact hsize.trans_le h.grows.later.watchers_le
    quiet := h.quiet
    only := fun y _ hy => List.mem_singleton.2 (h.only y hy).1
    marked := fun hdirty hx => by
      obtain ⟨hended, hnone | hw⟩ := h.marked hdirty
      · cases hnone.symm.trans hx.1
      · cases hw.symm.trans hx.1
        exact ⟨hended, List.mem_singleton_self _⟩
    ended := fun hended hx => by
      cases (h.ended hended).symm.trans hx.1
      exact ⟨List.mem_singleton_self _, fun y hturn hy hsize _ =>
        iff_of_true (hchecked y hturn hy hsize) (hpair y)⟩
    all := fun _ y hturn hy hsize _ => hchecked y hturn hy hsize
    behind := fun _ _ y _ hsub => absurd hsub (hpair y) }

/-- Where nothing is checked nothing needs to be. -/
lemma of_unchecked (h : Interlude t u) (hnone : Unchecked t u) : Covers z s x [] t u {} where
  toSurveyed := .of_unchecked h.toGrows hnone
  quiet _ := h
  only w _ hw := absurd hw (hnone.not_checked w)
  marked h := nomatch h
  ended h := nomatch h
  all _ _ _ hw := nomatch hw
  behind h := nomatch h

/-- A stretch that ended the walk covers what would have come after it. -/
lemma append_of_ended (h : Covers z s x ws₁ t u f) (hended : f.ended = true)
    (hdisjoint : ws₁.Disjoint ws₂) : Covers z s x (ws₁ ++ ws₂) t u f where
  toSurveyed := h.toSurveyed
  quiet := h.quiet
  only w hturn hw := List.mem_append_left _ (h.only w hturn hw)
  marked hdirty hx := absurd (h.marked hdirty hx).1 (by simp [hended])
  ended hended hx := by
    obtain ⟨hmem, hall⟩ := h.ended hended hx
    refine ⟨List.mem_append_left _ hmem, fun w hturn hw hsize hhome => ?_⟩
    rcases List.mem_append.1 hw with hw | hw
    · rw [pair_sublist_append_left_iff (hdisjoint hw)]
      exact hall w hturn hw hsize hhome
    · refine iff_of_false (fun hchecked => hdisjoint (h.only w hturn hchecked) hw) ?_
      rw [not_not, pair_sublist_append_iff]
      exact .inr (.inl ⟨hmem, hw⟩)
  all h := absurd h (by simp [hended])
  behind hdirty hx := absurd (h.marked hdirty hx).1 (by simp [hended])

/-- Two stretches one after the other cover both lists. -/
lemma append (h₁ : Covers z s x ws₁ t v f₁) (hf : f₁.ended = false)
    (h₂ : Covers z s x ws₂ v u f₂) (hdisjoint : ws₁.Disjoint ws₂) :
    Covers z s x (ws₁ ++ ws₂) t u ⟨f₁.dirty || f₂.dirty, f₂.ended⟩ := by
  have hscopes := h₁.later.scopes_le
  have hwatchers := h₁.later.watchers_le
  have hsplit := fun {w} (hw : Checked t u w) => hw.split h₁.journal h₂.journal
  -- the mark at the end was set in the second part, or in the first one and kept in the second
  have hmark : (f₁.dirty || f₂.dirty) = true → Marks u z s x →
      (f₂.dirty = true ∧ f₂.ended = false ∧ x ∈ ws₂) ∨
        (f₁.dirty = true ∧ f₂.ended = false ∧ x ∈ ws₁ ∧ Marks v z s x ∧
          u.watchers.size = v.watchers.size) := by
    intro hdirty hx
    cases hd : f₂.dirty with
    | true => exact .inl ⟨rfl, h₂.marked hd hx⟩
    | false =>
      rw [hd, Bool.or_false] at hdirty
      obtain ⟨hsame, hkept⟩ := (h₂.quiet hd).of_mark hx.1
      have hv : Marks v z s x := ⟨hsame, hx.2⟩
      have hmem := (h₁.marked hdirty hv).2
      refine .inr ⟨hdirty, ?_, hmem, hv, hkept.size⟩
      cases hended : f₂.ended with
      | false => rfl
      | true => exact absurd (h₂.ended hended hx).1 (hdisjoint hmem)
  exact {
    toSurveyed := trans_of Surveyed h₁.toSurveyed h₂.toSurveyed
    quiet := fun h => by
      rw [Bool.or_eq_false_iff] at h
      exact trans_of Interlude (h₁.quiet h.1) (h₂.quiet h.2)
    only := fun w hturn hw => by
      rw [List.mem_append]
      exact (hsplit hw).imp (h₁.only w hturn) (h₂.only w hturn)
    marked := fun hdirty hx => by
      rcases hmark hdirty hx with ⟨-, hended, hmem⟩ | ⟨-, hended, hmem, -⟩
      · exact ⟨hended, List.mem_append_right _ hmem⟩
      · exact ⟨hended, List.mem_append_left _ hmem⟩
    ended := fun hended hx => by
      obtain ⟨hmem, hall⟩ := h₂.ended hended hx
      have hx₁ : x ∉ ws₁ := fun h => hdisjoint h hmem
      refine ⟨List.mem_append_right _ hmem, fun w hturn hw hsize hhome => ?_⟩
      rw [pair_sublist_append_right_iff hx₁]
      rcases List.mem_append.1 hw with hw | hw
      · refine iff_of_true ((h₁.all hf w hturn hw hsize hhome).after h₂.journal) fun hsub => ?_
        exact hdisjoint hw (hsub.subset (by simp))
      · rw [← hall w hturn hw (hsize.trans_le hwatchers) (hhome.trans_le hscopes)]
        refine ⟨fun hchecked => ?_, fun hchecked => hchecked.before h₁.journal⟩
        exact (hsplit hchecked).resolve_left fun h => hdisjoint (h₁.only w hturn h) hw
    all := fun hended w hturn hw hsize hhome => by
      rcases List.mem_append.1 hw with hw | hw
      · exact (h₁.all hf w hturn hw hsize hhome).after h₂.journal
      · exact (h₂.all hended w hturn hw (hsize.trans_le hwatchers)
          (hhome.trans_le hscopes)).before h₁.journal
    behind := fun hdirty hx w hturn hsub hhome hsize => by
      rcases hmark hdirty hx with ⟨hd, -, hmem⟩ | ⟨hd, hended, hmem, hv, hkept⟩
      · rw [pair_sublist_append_right_iff fun h => hdisjoint h hmem] at hsub
        exact (h₂.behind hd hx w hturn hsub (hhome.trans_le hscopes) hsize).before h₁.journal
      · rw [pair_sublist_append_iff] at hsub
        rcases hsub with hsub | ⟨-, hw⟩ | hsub
        · exact (h₁.behind hd hv w hturn hsub hhome (hkept ▸ hsize)).after h₂.journal
        · exact (h₂.all hended w hturn hw (hkept ▸ hsize)
            (hhome.trans_le hscopes)).before h₁.journal
        · exact absurd (hsub.subset (by simp)) (hdisjoint hmem) }

/-- What covers a list covers another one that has the same watchers from before in the same
order. -/
lemma of_list (h : Covers z s x ws t u f) (hto : ∀ w ∈ z.turns s, w ∈ ws → w ∈ ws')
    (hfrom : ∀ w ∈ z.turns s, w ∈ ws' → w < t.watchers.size → z.home w < t.scopes.size → w ∈ ws)
    (hbehind : ∀ w ∈ z.turns s, x ∈ ws → [x, w].Sublist ws' → z.home w < t.scopes.size → w ∈ ws)
    (hpair : ∀ w ∈ z.turns s, x ∈ z.turns s → x ∈ ws → w ∈ ws →
      ([x, w].Sublist ws ↔ [x, w].Sublist ws')) : Covers z s x ws' t u f where
  toSurveyed := h.toSurveyed
  quiet := h.quiet
  only w hturn hw := hto w hturn (h.only w hturn hw)
  marked hdirty hx := (h.marked hdirty hx).imp_right (hto x hx.2)
  ended hended hx := by
    obtain ⟨hmem, hall⟩ := h.ended hended hx
    refine ⟨hto x hx.2 hmem, fun w hturn hw hsize hhome => ?_⟩
    have hw' := hfrom w hturn hw hsize hhome
    rw [← hpair w hturn hx.2 hmem hw']
    exact hall w hturn hw' hsize hhome
  all hended w hturn hw hsize hhome :=
    h.all hended w hturn (hfrom w hturn hw hsize hhome) hsize hhome
  behind hdirty hx w hturn hsub hhome hsize := by
    have hmem := (h.marked hdirty hx).2
    have hw := hbehind w hturn hmem hsub hhome
    exact h.behind hdirty hx w hturn ((hpair w hturn hx.2 hmem hw).2 hsub) hhome hsize

/-- A scope that is walked over lists the watchers from before that it lists later. -/
lemma of_watchers (h : Covers z s x (t.scope a).watchers t u f) (ht : t.Sound) (hz : Later t z)
    (hsound : z.Sound) : Covers z s x (z.scope a).watchers t u f := by
  have hto : ∀ w ∈ z.turns s, w ∈ (t.scope a).watchers → w ∈ (z.scope a).watchers := by
    intro w hturn hw
    have hhome : z.home w = a := (hz.home_eq (ht.lt_size_of_mem_watchers hw)).trans (ht.home_eq hw)
    have hmem := (hsound.mem_watchers_home hturn).2
    rwa [hhome] at hmem
  have hfrom : ∀ w ∈ z.turns s, w ∈ (z.scope a).watchers → w < t.watchers.size →
      z.home w < t.scopes.size → w ∈ (t.scope a).watchers := by
    intro w _ hw hsize hhome
    rw [hsound.home_eq hw] at hhome
    exact hz.mem_watchers hhome hsize hw
  have horder := fun {y y'} hy hy' => pair_sublist_iff_of_pairwise (x := y) (y := y')
    (fun h => Nat.lt_asymm h) (hsound.watchers_sorted a) hy hy'
  refine h.of_list hto hfrom ?_ ?_
  · -- the newer watchers have their turns first
    intro w hturn hx hsub hhome
    have hw : w ∈ (z.scope a).watchers := hsub.subset (by simp)
    have hlt : x > w := (horder (hsub.subset (by simp)) hw).1 hsub
    exact hfrom w hturn hw (lt_trans hlt (ht.lt_size_of_mem_watchers hx)) hhome
  · intro w hturn hxturn hx hw
    rw [horder (hto x hxturn hx) (hto w hturn hw)]
    exact pair_sublist_iff_of_pairwise (fun h => Nat.lt_asymm h) (ht.watchers_sorted a) hx hw

/-- A scope that is walked over has the children from before that it has later. -/
lemma of_children (h : Covers z s x ((t.scope a).children.flatMap z.turns) t u f) (hsa : s ≤ a)
    (ht : t.Sound) (hz : Later t z) (hsound : z.Sound) :
    Covers z s x ((z.scope a).children.flatMap z.turns) t u f := by
  have hto : ∀ w ∈ z.turns s, ∀ c ∈ (t.scope a).children, w ∈ z.turns c →
      c ∈ (z.scope a).children := fun w hturn c hc hw =>
    hz.mem_children_of_turns ht hsound hsa hc hturn hw
  have hfrom : ∀ w ∈ (z.scope a).children.flatMap z.turns, z.home w < t.scopes.size →
      w ∈ (t.scope a).children.flatMap z.turns := by
    intro w hw hhome
    obtain ⟨c, hc, hwc⟩ := List.mem_flatMap.1 hw
    have hac := (hsound.child hc).1
    have hle := hsound.le_of_under (hsound.mem_watchers_home hwc).1
    have hsize : c < t.scopes.size := lt_of_le_of_lt hle hhome
    exact List.mem_flatMap.2 ⟨c, hz.mem_children (lt_trans hac hsize) hsize hc, hwc⟩
  have hunique : ∀ {cs : List ScopeId}, (∀ c ∈ cs, a < c ∧ (z.scope c).parent = some a) →
      ∀ w, ∀ c ∈ cs, ∀ d ∈ cs, w ∈ z.turns c → w ∈ z.turns d → c = d := by
    intro cs hcs w c hc d hd hwc hwd
    exact hsound.eq_of_mem_turns (hcs c hc).1 (hcs d hd).1 (hcs c hc).2 (hcs d hd).2 hwc hwd
  refine h.of_list ?_ (fun w _ hw _ hhome => hfrom w hw hhome) ?_ ?_
  · intro w hturn hw
    obtain ⟨c, hc, hwc⟩ := List.mem_flatMap.1 hw
    exact List.mem_flatMap.2 ⟨c, hto w hturn c hc hwc, hwc⟩
  · intro w _ _ hsub hhome
    exact hfrom w (hsub.subset (by simp)) hhome
  · intro w hturn hxturn hx hw
    obtain ⟨c, hc, hxc⟩ := List.mem_flatMap.1 hx
    obtain ⟨d, hd, hwd⟩ := List.mem_flatMap.1 hw
    rw [pair_sublist_flatMap_iff_of_pairwise (ht.children_sorted a) hc hd hxc hwd
        (hunique fun c hc => hz.parent_eq ht hc),
      pair_sublist_flatMap_iff_of_pairwise (hsound.children_sorted a) (hto x hxturn c hc hxc)
        (hto w hturn d hd hwd) hxc hwd (hunique fun c hc => (refl_of Later z).parent_eq hsound hc)]

end Covers

/-! ## Walks -/

section Governed

variable (hE : E.Governed)

include hE

lemma inPhase_visitScope (a : ScopeId) : Leads (InPhase Grows) (E.visitScope a) :=
  leads_visitScope Tree.passes_grows.inPhase.toVisits.surveys (hE.inPhase Tree.defers_grows) a

lemma inPhase_walk (d : ℕ) (a : ScopeId) :
    Leads (InPhase Grows) (Routine.walk E.visitScope d a) :=
  Routine.leads_walk (inPhase_visitScope hE) d a

omit hE in
lemma covers_andThen {first second : Routine κ σ Findings} (ht : t.Sound)
    (hphase : t.phase = some phase) (hfirst : Leads (InPhase Grows) first)
    (hsecond : Leads (InPhase Grows) second) (hz : Later u z)
    (h : runOn (first.andThen second) t = some (.ok f, u)) (hdisjoint : ws₁.Disjoint ws₂)
    (h₁ : ∀ {v f}, Later v z → runOn first t = some (.ok f, v) → Covers z s x ws₁ t v f)
    (h₂ : ∀ {v f}, v.Sound → v.phase = some phase → Later v z →
      runOn second v = some (.ok f, u) → Covers z s x ws₂ v u f) :
    Covers z s x (ws₁ ++ ws₂) t u f := by
  rcases Routine.runOn_andThen_cases h with ⟨e, -, hr⟩ | ⟨g, hrun, hended, hr⟩ |
    ⟨g, v, r₂, hrun, hended, hrun', hr⟩
  · cases hr
  · cases hr
    exact (h₁ hz hrun).append_of_ended hended hdisjoint
  · cases r₂ with
    | error e => cases hr
    | ok g' =>
      cases hr
      obtain ⟨hvphase, htv⟩ := hfirst hrun phase hphase
      have hvu := (hsecond hrun' phase hvphase).2
      have hvz := hvu.later.trans hz
      exact (h₁ hvz hrun).append hended (h₂ (htv.sound ht) hvphase hvz hrun') hdisjoint

omit hE in
lemma covers_inOrder {ι : Type} {visit : ι → Routine κ σ Findings} {turns : ι → List WatcherId}
    (hgrows : ∀ i, Leads (InPhase Grows) (visit i))
    {l : List ι} (hvisit : ∀ {i t u f}, i ∈ l → t.Sound → t.phase = some phase → Later u z →
      runOn (visit i) t = some (.ok f, u) → Covers z s x (turns i) t u f)
    (hdisjoint : l.Pairwise fun i j => (turns i).Disjoint (turns j)) (ht : t.Sound)
    (hphase : t.phase = some phase) (hz : Later u z)
    (h : runOn (Routine.inOrder visit l) t = some (.ok f, u)) :
    Covers z s x (l.flatMap turns) t u f := by
  induction l generalizing t f with
  | nil =>
    cases h
    exact .of_unchecked (refl_of Interlude _) (refl_of Unchecked _)
  | cons i l ih =>
    rw [List.pairwise_cons] at hdisjoint
    rw [List.flatMap_cons]
    refine covers_andThen ht hphase (hgrows i) (Routine.leads_inOrder hgrows l) hz h ?_
      (fun hvz hrun => hvisit (List.mem_cons_self ..) ht hphase hvz hrun)
      (fun hv hvphase _ hrun => ih (fun hj => hvisit (List.mem_cons_of_mem _ hj)) hdisjoint.2 hv
        hvphase hrun)
    intro w hw hw'
    obtain ⟨j, hj, hwj⟩ := List.mem_flatMap.1 hw'
    exact hdisjoint.1 j hj hw hwj

lemma covers_visitScope (ht : t.Sound) (hphase : t.phase = some phase) (hz : Later u z)
    (hsound : z.Sound) (h : runOn (E.visitScope a) t = some (.ok f, u)) :
    Covers z s x (z.scope a).watchers t u f := by
  rw [visitScope, Compute.runOn_read_bind] at h
  have hlater := (inPhase_visitScope hE a (by rw [visitScope, Compute.runOn_read_bind]; exact h)
    phase hphase).2.later
  refine Covers.of_watchers ?_ ht (hlater.trans hz) hsound
  have hlist : (t.scope a).watchers.flatMap (fun w => [w]) = (t.scope a).watchers :=
    List.flatMap_singleton' _
  rw [← hlist]
  refine covers_inOrder (inPhase_visitWatcher hE) ?_ ?_ ht hphase hz h
  · intro w t u f _ _ hphase hz hrun
    obtain ⟨g, hg, hvisited⟩ := visited_of_visitWatcher hE hphase hrun
    cases hg
    exact .of_visit hvisited (hvisited.grows.later.trans hz) hsound
  · refine (ht.nodup_watchers a).imp fun hne w hw hw' => hne ?_
    exact (List.mem_singleton.1 hw).symm.trans (List.mem_singleton.1 hw')

lemma covers_walkAll {d : ℕ}
    (hwalk : ∀ {c t u f}, s ≤ c → t.Sound → t.phase = some phase → Later u z →
      runOn (Routine.walk E.visitScope d c) t = some (.ok f, u) →
      Covers z s x (z.turns c) t u f)
    (hsa : s ≤ a) (ht : t.Sound) (hphase : t.phase = some phase) (hz : Later u z)
    (hsound : z.Sound)
    (h : runOn (Routine.inOrder (Routine.walk E.visitScope d) (t.scope a).children) t =
      some (.ok f, u)) : Covers z s x ((z.scope a).children.flatMap z.turns) t u f := by
  have hlater := Routine.leads_inOrder (inPhase_walk hE d) _ h phase hphase
  have htz := hlater.2.later.trans hz
  refine Covers.of_children ?_ hsa ht htz hsound
  refine covers_inOrder (inPhase_walk hE d) ?_ ?_ ht hphase hz h
  · intro c v u f hc hv hvphase hz hrun
    exact hwalk (hsa.trans (ht.child hc).1.le) hv hvphase hz hrun
  · refine (ht.nodup_children a).imp_of_mem fun {c c'} hc hc' hne w hw hw' => hne ?_
    obtain ⟨hac, hparent⟩ := htz.parent_eq ht hc
    obtain ⟨hac', hparent'⟩ := htz.parent_eq ht hc'
    exact hsound.eq_of_mem_turns hac hac' hparent hparent' hw hw'

/-- A walk covers the turns of every later tree. -/
lemma covers_walk {d : ℕ} (hsa : s ≤ a) (ht : t.Sound) (hphase : t.phase = some phase)
    (hz : Later u z) (hsound : z.Sound)
    (h : runOn (Routine.walk E.visitScope d a) t = some (.ok f, u)) :
    Covers z s x (z.turns a) t u f := by
  induction d generalizing a t u f with
  | zero => cases h
  | succ d ih =>
    have hchildren : Leads (InPhase Grows) (do
        Routine.inOrder (Routine.walk E.visitScope d)
          (← Compute.read fun t : Tree κ σ => (t.scope a).children)) :=
      (Leads.read _).bind fun cs => Routine.leads_inOrder (inPhase_walk hE d) cs
    have hnodup := hsound.nodup_turns a
    rw [hsound.turns_eq] at hnodup ⊢
    refine covers_andThen ht hphase (inPhase_visitScope hE a) hchildren hz h
      (List.disjoint_of_nodup_append hnodup)
      (fun hvz hrun => covers_visitScope hE ht hphase hvz hsound hrun) ?_
    intro v f hv hvphase _ hrun
    rw [Compute.runOn_read_bind] at hrun
    exact covers_walkAll hE (fun hsc ht hphase hz => ih hsc ht hphase hz) hsa hv hvphase hz hsound
      hrun

/-! ## Passes -/

omit hE in
/-- Where visits in order were ended, one of them was, and the last one that was made. -/
lemma exists_ended_of_inOrder {ι : Type} {visit : ι → Routine κ σ Findings} {l : List ι}
    (hgrows : ∀ i, Leads (InPhase Grows) (visit i)) (hended : f.ended = true)
    (hclean : f.dirty = false) (h : runOn (Routine.inOrder visit l) t = some (.ok f, u)) :
    ∃ i ∈ l, ∃ v g, InPhase Grows t v ∧ runOn (visit i) v = some (.ok g, u) ∧ g.ended = true ∧
      g.dirty = false := by
  induction l generalizing t f with
  | nil =>
    cases h
    cases hended
  | cons i l ih =>
    rcases Routine.runOn_andThen_cases h with ⟨e, -, hr⟩ | ⟨g, hrun, -, hr⟩ |
      ⟨g, v, r₂, hrun, -, hrun', hr⟩
    · cases hr
    · cases hr
      exact ⟨i, List.mem_cons_self .., t, f, refl_of (InPhase Grows) t, hrun, hended, hclean⟩
    · cases r₂ with
      | error e => cases hr
      | ok g' =>
        cases hr
        rw [Bool.or_eq_false_iff] at hclean
        obtain ⟨j, hj, v', g'', htv, hlast⟩ := ih (f := g') hended hclean.2 hrun'
        exact ⟨j, List.mem_cons_of_mem _ hj, v', g'', trans_of (InPhase Grows) (hgrows i hrun) htv,
          hlast⟩

/-- Walks over the children of a scope that find nothing dirty are an interlude. -/
lemma interlude_of_walkAll {d : ℕ} (ht : t.Sound) (hphase : t.phase = some phase)
    (h : runOn (Routine.inOrder (Routine.walk E.visitScope d) (t.scope a).children) t =
      some (.ok f, u)) (hclean : f.dirty = false) : Interlude t u := by
  have hu := (Routine.leads_inOrder (inPhase_walk hE d) _ h phase hphase).2.sound ht
  have hcovers : Covers u rootId 0 ((u.scope a).children.flatMap u.turns) t u f :=
    covers_walkAll hE (fun hsc ht hphase hz => covers_walk hE hsc ht hphase hz hu) (Nat.zero_le a)
      ht hphase (refl_of Later u) hu h
  exact hcovers.quiet hclean

/-- A walk that finds nothing dirty is an interlude. -/
lemma interlude_of_walk {d : ℕ} (ht : t.Sound) (hphase : t.phase = some phase)
    (h : runOn (Routine.walk E.visitScope d a) t = some (.ok f, u)) (hclean : f.dirty = false) :
    Interlude t u := by
  have hu := (inPhase_walk hE d a h phase hphase).2.sound ht
  have hcovers : Covers u rootId 0 (u.turns a) t u f :=
    covers_walk hE (Nat.zero_le a) ht hphase (refl_of Later u) hu h
  exact hcovers.quiet hclean

/-- A walk that was ended and found nothing dirty has come to the watcher that is marked. -/
lemma exists_mark_of_walk {d : ℕ} (ht : t.Sound) (hphase : t.phase = some phase)
    (h : runOn (Routine.walk E.visitScope d a) t = some (.ok f, u)) (hended : f.ended = true)
    (hclean : f.dirty = false) : ∃ x, u.lastDirty = some x ∧ x ∈ u.turns a := by
  have hu := (inPhase_walk hE d a h phase hphase).2.sound ht
  induction d generalizing a t f with
  | zero => cases h
  | succ d ih =>
    rcases Routine.runOn_andThen_cases h with ⟨e, -, hr⟩ | ⟨g, hrun, -, hr⟩ |
      ⟨g, v, r₂, hrun, -, hrun', hr⟩
    · cases hr
    · cases hr
      have hquiet := interlude_of_walk hE ht hphase h hclean
      rw [visitScope, Compute.runOn_read_bind] at hrun
      obtain ⟨w, hw, v, g, htv, hvisit, hended, -⟩ :=
        exists_ended_of_inOrder (inPhase_visitWatcher hE) hended hclean hrun
      obtain ⟨g', hg, hvisited⟩ := visited_of_visitWatcher hE (htv phase hphase).1 hvisit
      cases hg
      have hx := hvisited.ended hended
      exact ⟨w, hx, hu.mem_turns.2 ⟨a, .refl, (hquiet.of_mark hx).2.watchers a hw⟩⟩
    · cases r₂ with
      | error e => cases hr
      | ok g' =>
        cases hr
        rw [Bool.or_eq_false_iff] at hclean
        obtain ⟨hvphase, htv⟩ := inPhase_visitScope hE a hrun phase hphase
        have hv := htv.sound ht
        rw [Compute.runOn_read_bind] at hrun'
        have hquiet := interlude_of_walkAll (f := g') hE hv hvphase hrun' hclean.2
        obtain ⟨c, hc, v', g'', hvv', hwalk', hended', hclean'⟩ :=
          exists_ended_of_inOrder (f := g') (inPhase_walk hE d) hended hclean.2 hrun'
        obtain ⟨hvphase', hgrows⟩ := hvv' phase hvphase
        obtain ⟨x, hx, hturn⟩ := ih (hgrows.sound hv) hvphase' hwalk' hended' hclean'
        refine ⟨x, hx, ?_⟩
        rw [hu.turns_eq]
        exact List.mem_append_right _
          (List.mem_flatMap.2 ⟨c, (hquiet.of_mark hx).2.children a hc, hturn⟩)

/-- A pass covers the turns of every later tree. -/
theorem covers_pass {dirty : Bool} (ht : t.Sound) (hphase : t.phase = some phase)
    (h : runOn (E.pass s) t = some (.ok dirty, u)) : ∃ ended,
      runOn (Routine.walk E.visitScope E.limit s) (t.note (.pass s)) =
        some (.ok ⟨dirty, ended⟩, u) ∧
      (∀ z x, Later u z → z.Sound → Covers z s x (z.turns s) t u ⟨dirty, ended⟩) ∧
      (dirty = false → ended = true → ∃ x, Marks u u s x) := by
  rw [pass, Compute.runOn_change_bind] at h
  rcases runOn_bind_cases h with ⟨e, -, hr⟩ | ⟨f, v, hwalk, hrest⟩
  · cases hr
  cases hrest
  have hnoted : (t.note (.pass s)).Sound := ht.of_frame rfl
  refine ⟨f.ended, hwalk, fun z x hz hsound => ?_, fun hclean hended =>
    exists_mark_of_walk hE hnoted hphase hwalk hended hclean⟩
  have hnote : Covers z s x [] t (t.note (.pass s)) {} := by
    refine .of_unchecked ?_ (.of_step rfl ?_)
    swap
    · intro w h
      cases h
    exact .of_grows (.of_frame rfl) rfl (.of_frame rfl) (List.suffix_cons _ _) rfl
  exact hnote.append rfl (covers_walk hE le_rfl hnoted hphase hz hsound hwalk)
    (List.disjoint_nil_left _)

end Governed

end Engine

end DataBinding
