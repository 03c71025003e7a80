import DataBinding.Proofs.Counts
import DataBinding.Proofs.Simulation
import DataBinding.Tree.Recording

/-!
# What a collection watch comes to see

A collection watch looks at a value again and again, while anybody may change the value in between.
Of each look it keeps the view, and of each report to its listener what the value held
(`Survey.see`).  A sighting is one look that succeeded: the value, the heap at that moment, and what
the listener was told if it was told (`Sighting`).

`Account ss S` says that the sightings `ss` are those of a watch that began without any, and that
`S` is what it keeps by now.  From that it follows when the listener was told (`Account.told_iff`)
and what it was told (`Account.report_eq`).

That the watch compares counts of changes, and these as numbers, makes no difference as long as the
count is below `2 ^ 53`.
-/

namespace DataBinding

variable {κ : Type}

/-! ## Views -/

namespace View

/-- Two views agree: lists of the same length with the same elements in the same places, or two
single values that are the same. -/
def Same : View → View → Prop
  | .list vs, .list ws => List.Forall₂ (fun v w => v.same w = true) vs ws
  | .single v, .single w => v.same w = true
  | _, _ => False

/-- There are differences between two views unless they agree. -/
lemma changesSince_eq_zero_iff (view old : View) : view.changesSince old = 0 ↔ view.Same old := by
  cases view with
  | list vs =>
    cases old with
    | list ws =>
      rw [Same, List.forall₂_iff_zip]
      simp only [changesSince, newItems, Nat.add_eq_zero_iff, ite_eq_left_iff, one_ne_zero,
        imp_false, not_not, List.countP_eq_zero, Bool.not_eq_true', Bool.not_eq_false, Prod.forall]
      constructor
      · rintro ⟨hlength, hsame, -⟩
        exact ⟨hlength, fun v w h => hsame v w h⟩
      · rintro ⟨hlength, hsame⟩
        exact ⟨hlength, fun v w h => hsame v w h, Nat.sub_eq_zero_of_le hlength.le⟩
    | single w => simp [changesSince, Same]
  | single v =>
    cases old with
    | list ws => simp [changesSince, Same]
    | single w => simp [changesSince, Same]

end View

/-! ## Copies -/

namespace Heap

/-- The value is a shallow copy of what another value held in the heap `seen`: an array with the
same elements, or an object with the same own properties, that is made on the way from the heap
`h` to the heap `k` and so is no array and no object of before.  What is no array and no object is
its own copy. -/
def Copies (seen h k : Heap) (copy : Value) : Value → Prop
  | .array a => ∃ b, copy = .array b ∧ h.arrays.size ≤ b ∧ k.items b = seen.items a
  | .object o =>
    ∃ p, copy = .object p ∧ h.objects.size ≤ p ∧ k.object p = ⟨seen.record o, none⟩
  | v => copy = v

variable {seen h k : Heap} {copy v : Value}

lemma copies_of_ofContents (hcopy : h.ofContents (seen.contents v) = (copy, k)) :
    seen.Copies h k copy v := by
  cases v with
  | array a =>
    cases hcopy
    exact ⟨_, rfl, le_rfl, items_newArray_self ..⟩
  | object o =>
    cases hcopy
    exact ⟨_, rfl, le_rfl, object_newObject_self ..⟩
  | _ =>
    cases hcopy
    rfl

lemma keeps_ofContents (h : Heap) (contents : Contents) : h.Keeps (h.ofContents contents).2 := by
  cases contents with
  | items values => exact h.keeps_newArray values
  | properties record => exact h.keeps_newObject record none
  | plain v => exact .refl h

end Heap

/-! ## Surveys -/

/-- A collection watch, apart from whether it is active: where and with which procedures it was
registered, and what it keeps from one check to the next. -/
structure Survey (κ : Type) where
  scope : ScopeId
  watch : κ
  listener : κ
  byValue : Bool
  state : Collection
  last : Option Frozen

/-- What a watcher keeps if it is a collection watch. -/
def Watcher.survey? : Watcher κ → Option (Survey κ)
  | { scope, kind := .collection watch listener state, byValue, last, .. } =>
    some ⟨scope, watch, listener, byValue, state, last⟩
  | _ => none

/-- What the listener of a collection watch is told, and the heap when it is called. -/
structure Report where
  change : Change
  heap : Heap

/-- A look at the watched collection: the value, the heap when the procedure that computes it has
answered, and what the listener is told of it, if it is. -/
structure Sighting where
  value : Value
  heap : Heap
  report : Option Report

/-- What is seen of the value. -/
def Sighting.view (s : Sighting) : View := s.heap.view s.value

namespace Survey

/-- Nothing was seen yet. -/
structure Fresh (S : Survey κ) : Prop where
  state : S.state = {}
  last : S.last = none

/-- The survey when a value is taken in. -/
def notice (S : Survey κ) (h : Heap) (v : Value) : Survey κ :=
  { S with state := S.state.notice h v }

/-- The survey when a change is recorded and reported. -/
def tell (S : Survey κ) (h : Heap) : Survey κ :=
  { S with state := S.state.report h, last := some (.leaf (.ofNat S.state.changes)) }

/-- Whether the count of changes is the one that was recorded last. -/
def unchanged (S : Survey κ) : Bool := S.last.any fun
  | .leaf v => (Value.ofNat S.state.changes).same v
  | _ => false

/-- A look at a value: what the listener is told, and the survey that comes of it. -/
def see (S : Survey κ) (h : Heap) (v : Value) : Option Report × Survey κ :=
  let S := S.notice h v
  if S.unchanged then (none, S)
  else (some ⟨⟨v, (S.state.oldValue h).1⟩, (S.state.oldValue h).2⟩, S.tell h)

variable {S : Survey κ} {h : Heap} {v : Value}

lemma see_of_unchanged (hsame : (S.notice h v).unchanged = true) :
    S.see h v = (none, S.notice h v) := by
  simp only [see, hsame, if_true]

lemma see_of_changed (hchanged : (S.notice h v).unchanged = false) :
    S.see h v = (some ⟨⟨v, ((S.notice h v).state.oldValue h).1⟩,
      ((S.notice h v).state.oldValue h).2⟩, (S.notice h v).tell h) := by
  simp only [see, hchanged, Bool.false_eq_true, if_false]

/-- Whatever is told, the differences to the last view are counted. -/
lemma changes_see : (S.see h v).2.state.changes =
    S.state.changes + (h.view v).changesSince S.state.view := by
  unfold see
  dsimp only
  split <;> rfl

/-- As long as the counts are small the record says which count it is. -/
lemma unchanged_iff {n : ℕ} (hlast : S.last = some (.leaf (.ofNat n))) (hn : n < 2 ^ 53)
    (hchanges : S.state.changes < 2 ^ 53) : S.unchanged = true ↔ S.state.changes = n := by
  rw [unchanged, hlast]
  exact Value.same_ofNat_iff hchanges hn

lemma view_see : (S.see h v).2.state.view = h.view v := by
  unfold see
  dsimp only
  split <;> rfl

end Survey

/-! ## Accounts -/

/-- The sightings of a watch from its beginning on, and what it keeps after them. -/
inductive Account : List Sighting → Survey κ → Prop
  | fresh {S : Survey κ} (h : S.Fresh) : Account [] S
  | see {ss : List Sighting} {S : Survey κ} {s : Sighting} (h : Account ss S)
    (hreport : s.report = (S.see s.heap s.value).1) :
    Account (ss ++ [s]) (S.see s.heap s.value).2

/-- The sightings that the listener was told of. -/
def told (ss : List Sighting) : List Sighting := ss.filter (·.report.isSome)

namespace Account

variable {S : Survey κ} {ss before after : List Sighting} {s : Sighting}

/-- The sightings up to some of them are an account, too, and what is told of that one is what comes
of it then. -/
lemma split (h : Account (before ++ s :: after) S) : ∃ S₀ : Survey κ, Account before S₀ ∧
    s.report = (S₀.see s.heap s.value).1 ∧
      (S₀.see s.heap s.value).2.state.changes ≤ S.state.changes := by
  generalize hss : before ++ s :: after = ss at h
  induction h generalizing after with
  | fresh => simp at hss
  | @see ss S s' h hreport ih =>
    rcases List.eq_nil_or_concat after with rfl | ⟨after, x, rfl⟩
    · obtain ⟨rfl, hs⟩ := List.append_inj' hss rfl
      cases hs
      exact ⟨S, h, hreport, le_rfl⟩
    · rw [List.concat_eq_append, ← List.cons_append, ← List.append_assoc] at hss
      obtain ⟨hss, -⟩ := List.append_inj' hss rfl
      obtain ⟨S₀, hbefore, hs, hle⟩ := ih hss
      rw [Survey.changes_see]
      exact ⟨S₀, hbefore, hs, hle.trans (Nat.le_add_right _ _)⟩

/-- The record is a number. -/
lemma leaf (h : Account ss S) : ∀ last ∈ S.last, ∃ v, last = .leaf v := by
  induction h with
  | fresh h =>
    intro last hlast
    cases h.last.symm.trans hlast
  | @see ss S s h hreport ih =>
    cases hsame : (S.notice s.heap s.value).unchanged with
    | true =>
      rw [Survey.see_of_unchanged hsame]
      exact ih
    | false =>
      rw [Survey.see_of_changed hsame]
      rintro _ ⟨⟩
      exact ⟨_, rfl⟩

/-- If there was a sighting the view is that of the last one, and the record is the count of
changes. -/
lemma fresh_or_last (h : Account ss S) (hchanges : S.state.changes < 2 ^ 53) :
    ss = [] ∧ S.Fresh ∨ ∃ s ∈ ss.getLast?, S.state.view = s.view ∧
      S.last = some (.leaf (.ofNat S.state.changes)) := by
  induction h with
  | fresh h => exact .inl ⟨rfl, h⟩
  | @see ss S s h hreport ih =>
    refine .inr ⟨s, by simp, Survey.view_see, ?_⟩
    cases hsame : (S.notice s.heap s.value).unchanged with
    | false =>
      rw [Survey.see_of_changed hsame]
      rfl
    | true =>
      rw [Survey.see_of_unchanged hsame] at hchanges ⊢
      have hle : S.state.changes ≤ (S.notice s.heap s.value).state.changes := Nat.le_add_right _ _
      rcases ih (hle.trans_lt hchanges) with ⟨-, hfresh⟩ | ⟨_, -, -, hlast⟩
      · have hnone : (S.notice s.heap s.value).last = none := hfresh.last
        rw [Survey.unchanged, hnone] at hsame
        cases hsame
      · have hcount := (Survey.unchanged_iff (S := S.notice s.heap s.value) hlast
          (hle.trans_lt hchanges) hchanges).1 hsame
        rw [hcount]
        exact hlast

/-- The listener is told of the first sighting, and then of each one whose view does not agree with
the view before it. -/
theorem told_iff (h : Account (before ++ s :: after) S) (hchanges : S.state.changes < 2 ^ 53) :
    s.report.isSome = true ↔ ∀ s' ∈ before.getLast?, ¬ s.view.Same s'.view := by
  obtain ⟨S₀, hbefore, hreport, hle⟩ := h.split
  have hcount : (S₀.notice s.heap s.value).state.changes =
      S₀.state.changes + s.view.changesSince S₀.state.view := rfl
  have hlt : (S₀.notice s.heap s.value).state.changes < 2 ^ 53 := by
    rw [Survey.changes_see] at hle
    exact (hcount.trans_le hle).trans_lt hchanges
  have htold : s.report.isSome = true ↔ (S₀.notice s.heap s.value).unchanged = false := by
    rw [hreport]
    cases hsame : (S₀.notice s.heap s.value).unchanged with
    | false => simp [Survey.see_of_changed hsame]
    | true => simp [Survey.see_of_unchanged hsame]
  rw [htold]
  have hlt₀ : S₀.state.changes < 2 ^ 53 := (Nat.le_of_add_right_le hcount.ge).trans_lt hlt
  rcases hbefore.fresh_or_last hlt₀ with ⟨rfl, hfresh⟩ | ⟨s', hs', hview, hlast⟩
  · have hnone : (S₀.notice s.heap s.value).last = none := hfresh.last
    simp [Survey.unchanged, hnone]
  · have hsame := Survey.unchanged_iff (S := S₀.notice s.heap s.value) hlast hlt₀ hlt
    rw [← Bool.not_eq_true, hsame, hcount, Nat.add_eq_left, View.changesSince_eq_zero_iff, hview]
    rw [Option.mem_def] at hs'
    simp [hs']

/-- What is kept of the last report is what the value held then. -/
lemma reported_eq (h : Account ss S) :
    S.state.reported = (told ss).getLast?.map fun s => s.heap.contents s.value := by
  induction h with
  | fresh h => rw [h.state]; rfl
  | @see ss S s h hreport ih =>
    cases hsame : (S.notice s.heap s.value).unchanged with
    | true =>
      rw [Survey.see_of_unchanged hsame] at hreport ⊢
      have hnone : told (ss ++ [s]) = told ss := by simp [told, List.filter_append, hreport]
      rw [hnone]
      exact ih
    | false =>
      rw [Survey.see_of_changed hsame] at hreport ⊢
      have hsome : told (ss ++ [s]) = told ss ++ [s] := by
        simp [told, List.filter_append, hreport]
      rw [hsome, List.getLast?_concat]
      rfl

/-- The listener is told the value that was seen and, as the old one, a copy of what it was told
last, with the contents of that time.  The first time both are the value that was seen. -/
theorem report_eq {ρ : Report} (h : Account (before ++ s :: after) S) (hρ : s.report = some ρ) :
    ρ.change.new = s.value ∧ (told before = [] → ρ.change.old = s.value) ∧
      (∀ s' ∈ (told before).getLast?, s'.heap.Copies s.heap ρ.heap ρ.change.old s'.value) ∧
      s.heap.Keeps ρ.heap := by
  obtain ⟨S₀, hbefore, hreport, -⟩ := h.split
  have hold := hbefore.reported_eq
  cases hsame : (S₀.notice s.heap s.value).unchanged with
  | true =>
    rw [Survey.see_of_unchanged hsame, hρ] at hreport
    cases hreport
  | false =>
    rw [Survey.see_of_changed hsame, hρ] at hreport
    cases hreport
    have hkept : (S₀.notice s.heap s.value).state.reported = S₀.state.reported := rfl
    cases hlast : (told before).getLast? with
    | none =>
      rw [hlast] at hold
      rw [Collection.oldValue, hkept, hold]
      exact ⟨rfl, fun _ => rfl, fun _ hs => (by cases hs), Heap.Keeps.refl _⟩
    | some s' =>
      rw [hlast] at hold
      rw [Collection.oldValue, hkept, hold]
      refine ⟨rfl, fun hnone => ?_, ?_, s.heap.keeps_ofContents _⟩
      · rw [hnone] at hlast
        cases hlast
      · rintro _ ⟨⟩
        exact Heap.copies_of_ofContents rfl

end Account

end DataBinding
