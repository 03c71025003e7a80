import DataBinding.Proofs.Keepsakes
import DataBinding.Proofs.Sightings

/-!
# Collection watches over whole runs

A collection watch keeps its survey from one check to the next (`surveys`), and only its own checks
change that.  So a run is a vigil (`Host.Vigil`): checks of the watch, each of which looks at the
collection or fails to (`Engine.Sees`), and in between whatever the host does, to the tree or to the
collection itself.

From this it follows that the listener is called exactly at the first look and at those that show
another view than the look before (`Host.collection_told_iff_view_changed`), and that it gets what
it got the last time as the old value, in the state of that time
(`Host.collection_told_previous_contents`).
-/

namespace DataBinding

open Compute (Leads runOn runOn_bind_cases)
open DataBinding.Tree (InPhase)

variable {κ σ α : Type} {w : WatcherId}

/-! ## Surveys of trees -/

/-- Whether it is a collection that is watched. -/
def WatchKind.isCollection : WatchKind κ → Bool
  | .collection .. => true
  | _ => false

lemma Watcher.survey?_eq_none_iff {watcher : Watcher κ} :
    watcher.survey? = none ↔ watcher.kind.isCollection = false := by
  obtain ⟨s, kind, byValue, active, last⟩ := watcher
  cases kind <;> simp [survey?, WatchKind.isCollection]

lemma WatchKind.isCollection_of_forget {a b : WatchKind κ} (h : a.forget = b.forget) :
    a.isCollection = b.isCollection := by
  cases a <;> cases b <;> first | rfl | cases h

/-- A collection watcher that remembers nothing yet. -/
lemma Watcher.fresh_of_survey? {watcher : Watcher κ} {S : Survey κ} (h : watcher.survey? = some S)
    (hkind : watcher.kind.forget = watcher.kind) (hlast : watcher.last = none) : S.Fresh := by
  obtain ⟨s, kind, byValue, active, last⟩ := watcher
  cases kind with
  | collection watch listener state =>
    cases h
    injection hkind with _ _ hstate
    exact ⟨hstate.symm, hlast⟩
  | _ => cases h

/-- A collection watch keeps its survey. -/
def surveys (κ : Type) : Keepsake κ (Survey κ) where
  read := Watcher.survey?
  applies := WatchKind.isCollection
  Fresh := Survey.Fresh
  read_eq_none_iff := Watcher.survey?_eq_none_iff
  read_inactive := by
    rintro ⟨s, kind, byValue, active, last⟩
    cases kind <;> rfl
  applies_of_forget := WatchKind.isCollection_of_forget
  applies_collection _ _ _ _ _ _ := rfl
  applies_member _ _ _ := rfl
  fresh_of_read := Watcher.fresh_of_survey?

/-- The watcher of a survey. -/
def Survey.watcher (S : Survey κ) (active : Bool) : Watcher κ where
  scope := S.scope
  kind := .collection S.watch S.listener S.state
  byValue := S.byValue
  active := active
  last := S.last

lemma Watcher.survey?_eq_some_iff {watcher : Watcher κ} {S : Survey κ} :
    watcher.survey? = some S ↔ watcher = S.watcher watcher.active := by
  obtain ⟨s, kind, byValue, active, last⟩ := watcher
  obtain ⟨s', watch, listener, byValue', state, last'⟩ := S
  cases kind <;> simp [survey?, Survey.watcher]
  tauto

namespace Tree

variable {t u v : Tree κ σ} {S : Survey κ}

/-- What the watcher keeps if it is registered and a collection watch. -/
def survey? (t : Tree κ σ) (w : WatcherId) : Option (Survey κ) :=
  (t.watcher? w).bind Watcher.survey?

lemma survey?_eq_some_iff :
    t.survey? w = some S ↔ ∃ active, t.watcher? w = some (S.watcher active) := by
  rw [survey?, Option.bind_eq_some_iff]
  constructor
  · rintro ⟨watcher, hw, hS⟩
    exact ⟨watcher.active, hw.trans (congrArg some (Watcher.survey?_eq_some_iff.1 hS))⟩
  · rintro ⟨active, hw⟩
    exact ⟨_, hw, rfl⟩

end Tree

/-! ## Checks -/

/-- What comes of a check of a collection watch.  The procedure that computes the collection is
called, and if it fails the host is handed the error.  Else its value is taken in and the count of
changes is compared with the record; if that is a change it becomes the last report, and the
listener is called. -/
inductive Engine.Sees (E : Engine κ σ) (w : WatcherId) (t : Tree κ σ) :
    Option Sighting → Tree κ σ → Prop
  | failed {S : Survey κ} {e : Error} {v u : Tree κ σ} (hS : t.survey? w = some S)
    (hwatch : runOn (E.call S.watch (.watch S.scope)) (t.note (.checked w)) = some (.error e, v))
    (herror : runOn (E.reportError e) v = some (.ok (), u)) : Sees E w t none u
  | clean {S : Survey κ} {value : Value} {v u : Tree κ σ} (hS : t.survey? w = some S)
    (hwatch : runOn (E.call S.watch (.watch S.scope)) (t.note (.checked w)) = some (.ok value, v))
    (hrecord : (v.noticeCollection w value).2.record w (v.noticeCollection w value).1 =
      some (none, u)) : Sees E w t (some ⟨value, v.store.heap, none⟩) u
  | dirty {S S' : Survey κ} {value : Value} {change told : Change} {v x y z u : Tree κ σ}
    {r : Except Error Unit} (hS : t.survey? w = some S)
    (hwatch : runOn (E.call S.watch (.watch S.scope)) (t.note (.checked w)) = some (.ok value, v))
    (hrecord : (v.noticeCollection w value).2.record w (v.noticeCollection w value).1 =
      some (some change, x)) (hS' : x.survey? w = some S')
    (hreport : Tree.reportCollection { x with lastDirty := some w } w S'.state S'.watch
      S'.listener = (told, y))
    (htell : runOn (E.tell S'.listener S'.scope told) y = some (r, z)) (hend : E.Contains r z u) :
    Sees E w t (some ⟨value, v.store.heap, some ⟨told, y.store.heap⟩⟩) u

namespace Tree

variable {t u : Tree κ σ} {S : Survey κ}

/-- To take a value in changes the survey, and the count of changes is answered. -/
lemma noticeCollection_of_survey? (hS : t.survey? w = some S) (v : Value) :
    (t.noticeCollection w v).1 = .ofNat (S.notice t.store.heap v).state.changes ∧
      (t.noticeCollection w v).2.survey? w = some (S.notice t.store.heap v) ∧
      ∃ kind, (t.noticeCollection w v).2 = t.setKind w kind := by
  obtain ⟨active, hw⟩ := survey?_eq_some_iff.1 hS
  let kind : WatchKind κ := .collection S.watch S.listener (S.state.notice t.store.heap v)
  have hself := watcher?_modifyWatcher_self (t := t) (w := w) ({ · with kind })
  rw [hw] at hself
  have heq : t.noticeCollection w v =
      (.ofNat (S.notice t.store.heap v).state.changes, t.setKind w kind) := by
    simp only [noticeCollection, hw, Survey.watcher]
    rfl
  rw [heq]
  exact ⟨rfl, survey?_eq_some_iff.2 ⟨active, hself⟩, kind, rfl⟩

/-- A change that is recorded changes the record. -/
lemma survey?_of_record {new : Value} {change : Change} (hS : t.survey? w = some S)
    (h : t.record w new = some (some change, u)) : ∃ frozen,
      t.store.heap.recorded? S.byValue new = some frozen ∧
      u.survey? w = some { S with last := some frozen } := by
  obtain ⟨active, hw⟩ := survey?_eq_some_iff.1 hS
  obtain ⟨watcher, frozen, hwatcher, -, hfrozen, hu, -⟩ := record_some_cases h
  cases hw.symm.trans hwatcher
  exact ⟨frozen, hfrozen, survey?_eq_some_iff.2 ⟨active, hu⟩⟩

/-- A report changes the survey, and the old value is a copy of the last one. -/
lemma reportCollection_of_survey? {told : Change} (hS : t.survey? w = some S)
    (h : t.reportCollection w S.state S.watch S.listener = (told, u)) :
    told = ⟨S.state.latest, (S.state.oldValue t.store.heap).1⟩ ∧
      u.store.heap = (S.state.oldValue t.store.heap).2 ∧
      u.survey? w = some { S with state := S.state.report t.store.heap } ∧
      ∃ watchers store, u = { t with watchers, store } := by
  cases h
  obtain ⟨active, hw⟩ := survey?_eq_some_iff.1 hS
  have hself := watcher?_modifyWatcher_self (t := t) (w := w)
    ({ · with kind := .collection S.watch S.listener (S.state.report t.store.heap) })
  rw [hw] at hself
  exact ⟨rfl, rfl, survey?_eq_some_iff.2 ⟨active, hself⟩, _, _, rfl⟩

end Tree

namespace Engine

variable {E : Engine κ σ} {t u : Tree κ σ} {S : Survey κ}

lemma Sees.exists_survey? {s : Option Sighting} (h : E.Sees w t s u) :
    ∃ S, t.survey? w = some S := by
  cases h <;> exact ⟨_, ‹_›⟩

/-- A collection watch that is active sees what there is to see when it is visited. -/
lemma sees_of_visit {r : Except Error Findings} (hS : t.survey? w = some S)
    (hkept : ∀ {procedure how r v}, runOn (E.call procedure how) (t.note (.checked w)) =
      some (r, v) → v.survey? w = some S)
    (h : runOn (E.visitWatcher w) t = some (r, u)) : u = t ∨ ∃ s, E.Sees w t s u := by
  rcases visit_steps h with ⟨-, rfl⟩ | ⟨-, watcher, r₁, v, hw, hobserve, hrest⟩
  · exact .inl rfl
  refine .inr ?_
  obtain ⟨active, hwatcher⟩ := Tree.survey?_eq_some_iff.1 hS
  cases hw.symm.trans hwatcher
  replace hobserve : runOn (do
      let v ← E.call S.watch (.watch S.scope)
      Compute.alter (·.noticeCollection w v)) (t.note (.checked w)) = some (r₁, v) := hobserve
  rcases runOn_bind_cases hobserve with ⟨e, hwatch, rfl⟩ | ⟨value, v₁, hwatch, hnotice⟩
  · rcases hrest with ⟨e', he, herror⟩ | ⟨new, hnew, -⟩
    · cases he
      exact ⟨_, .failed hS hwatch herror⟩
    · cases hnew
  · cases hnotice
    rcases hrest with ⟨e', he, -⟩ | ⟨new, hnew, hclean | ⟨change, x, z, r₂, hrecord, htell, hend⟩⟩
    · cases he
    · cases hnew
      exact ⟨_, .clean hS hwatch hclean⟩
    · cases hnew
      obtain ⟨-, hnoticed, -⟩ := Tree.noticeCollection_of_survey? (hkept hwatch) value
      obtain ⟨frozen, -, hS'⟩ := Tree.survey?_of_record hnoticed hrecord
      obtain ⟨active', hw'⟩ := Tree.survey?_eq_some_iff.1 hS'
      rw [notify, Compute.runOn_read_bind,
        show Tree.watcher? { x with lastDirty := some w } w = _ from hw'] at htell
      exact ⟨_, .dirty hS hwatch hrecord hS' rfl htell hend⟩

end Engine

namespace Tree

variable {t u : Tree κ σ} {S : Survey κ}

/-- If no change is recorded the value agrees with the record. -/
lemma agrees_of_record {new : Value} {watcher : Watcher κ} (hw : t.watcher? w = some watcher)
    (h : t.record w new = some (none, u)) :
    watcher.last.any (t.store.heap.agrees · new) = true := by
  by_contra hdiffers
  unfold record at h
  rw [hw] at h
  dsimp only at h
  rw [if_neg hdiffers] at h
  obtain ⟨frozen, -, h⟩ := Option.map_eq_some_iff.1 h
  cases h

/-- What a collection watch records is the count of changes. -/
lemma record_of_survey? {change : Option Change} (hS : t.survey? w = some S)
    (hleaf : ∀ last ∈ S.last, ∃ v, last = .leaf v)
    (h : t.record w (.ofNat S.state.changes) = some (change, u)) :
    (S.unchanged = true ∧ change = none ∧ u = t) ∨
      S.unchanged = false ∧ change ≠ none ∧ u.store.heap = t.store.heap ∧
        u.survey? w = some { S with last := some (.leaf (.ofNat S.state.changes)) } := by
  obtain ⟨active, hw⟩ := survey?_eq_some_iff.1 hS
  have hany : S.last.any (t.store.heap.agrees · (.ofNat S.state.changes)) = S.unchanged := by
    rw [Survey.unchanged]
    cases hlast : S.last with
    | none => rfl
    | some last =>
      obtain ⟨v, rfl⟩ := hleaf last hlast
      rw [Option.any_some, Option.any_some, Heap.agrees]
  cases change with
  | none =>
    obtain ⟨-, rfl⟩ | ⟨_, _, _, hchange, -⟩ := record_cases h
    · exact .inl ⟨hany.symm.trans (agrees_of_record hw h), rfl, rfl⟩
    · cases hchange
  | some change =>
    obtain ⟨watcher, frozen, hwatcher, hdiffers, hfrozen, hu, -, hold⟩ := record_some_cases h
    cases hw.symm.trans hwatcher
    have hleafed : frozen = .leaf (.ofNat S.state.changes) := by
      cases hbyValue : S.byValue with
      | false =>
        rw [Survey.watcher, hbyValue] at hfrozen
        exact (Option.some.inj hfrozen).symm
      | true =>
        rw [Survey.watcher, hbyValue] at hfrozen
        exact (Option.some.inj hfrozen).symm
    subst hleafed
    refine .inr ⟨hany.symm.trans hdiffers, Option.some_ne_none _, ?_,
      survey?_eq_some_iff.2 ⟨active, hu⟩⟩
    have hthawed : S.last.elim (Value.ofNat S.state.changes, t.store.heap)
        (·.thaw t.store.heap) = (change.old, u.store.heap) := hold.symm
    cases hlast : S.last with
    | none =>
      rw [hlast] at hthawed
      exact (congrArg Prod.snd hthawed).symm
    | some last =>
      obtain ⟨v, rfl⟩ := hleaf last hlast
      rw [hlast, Option.elim_some, Frozen.thaw] at hthawed
      exact (congrArg Prod.snd hthawed).symm

end Tree

namespace Host

variable {H : Host κ σ} {limit : ℕ} {t u : Tree κ σ} {S : Survey κ}

/-- Inside of a phase the call of a procedure overlooks the collection watch. -/
lemma overlooks_call {procedure : κ} {how : Invocation} {r : Except Error Value}
    (hphase : t.phase = some .digest) (hS : t.survey? w = some S)
    (h : runOn ((H.engine limit).call procedure how) t = some (r, u)) :
    u.phase = some .digest ∧ u.survey? w = some S ∧ u.checksOf w = t.checksOf w :=
  Keepsake.overlooks_call (K := surveys κ) hphase hS h

lemma overlooks_closes (hS : t.survey? w = some S) (h : (H.engine limit).Closes t u) :
    u.survey? w = some S ∧ u.checksOf w = t.checksOf w :=
  Keepsake.overlooks_closes (K := surveys κ) hS h

/-- Each check changes the survey as it sees the collection, and tells the listener of what comes of
that. -/
lemma survey?_of_sees {s : Option Sighting} (hphase : t.phase = some .digest)
    (hS : t.survey? w = some S) (hleaf : ∀ last ∈ S.last, ∃ v, last = .leaf v)
    (h : (H.engine limit).Sees w t s u) :
    u.checksOf w = t.checksOf w + 1 ∧ (s = none → u.survey? w = some S) ∧
      ∀ s', s = some s' → s'.report = (S.see s'.heap s'.value).1 ∧
        u.survey? w = some (S.see s'.heap s'.value).2 := by
  have hchecked := Keepsake.checksOf_checked t w
  cases h with
  | failed hS' hwatch herror =>
    cases hS.symm.trans hS'
    obtain ⟨-, hv, hchecks⟩ := overlooks_call (t := t.note (.checked w)) hphase hS hwatch
    obtain ⟨hu, hchecks'⟩ := overlooks_closes hv (.inr ⟨_, herror⟩)
    exact ⟨hchecks'.trans (hchecks.trans hchecked), fun _ => hu, fun _ hs => (by cases hs)⟩
  | @clean _ value v _ hS' hwatch hrecord =>
    cases hS.symm.trans hS'
    obtain ⟨-, hv, hchecks⟩ := overlooks_call (t := t.note (.checked w)) hphase hS hwatch
    obtain ⟨hcount, hnoticed, kind, hset⟩ := Tree.noticeCollection_of_survey? hv value
    rw [hcount] at hrecord
    obtain ⟨hsame, -, rfl⟩ | ⟨-, hchange, -⟩ := Tree.record_of_survey? hnoticed hleaf hrecord
    · refine ⟨?_, fun hs => absurd hs (Option.some_ne_none _), ?_⟩
      · rw [hset]
        exact hchecks.trans hchecked
      · rintro _ ⟨⟩
        rw [Survey.see_of_unchanged hsame]
        exact ⟨rfl, hnoticed⟩
    · exact absurd rfl hchange
  | @dirty _ S' value change told v x y z _ r hS' hwatch hrecord hS'' hreport htell hend =>
    cases hS.symm.trans hS'
    obtain ⟨hphase', hv, hchecks⟩ := overlooks_call (t := t.note (.checked w)) hphase hS hwatch
    obtain ⟨hcount, hnoticed, kind, hset⟩ := Tree.noticeCollection_of_survey? hv value
    rw [hcount] at hrecord
    obtain ⟨-, hchange, -⟩ | ⟨hchanged, -, hheap, hx⟩ :=
      Tree.record_of_survey? hnoticed hleaf hrecord
    · cases hchange
    cases hx.symm.trans hS''
    obtain ⟨rfl, hcall, hy, _, _, hreported⟩ :=
      Tree.reportCollection_of_survey? (t := { x with lastDirty := some w }) hx hreport
    obtain ⟨_, _, hrecorded⟩ := Tree.eq_of_record hrecord
    have hmid : y.phase = some .digest ∧ y.checksOf w = t.checksOf w + 1 := by
      rw [hreported, hrecorded, hset]
      exact ⟨hphase', hchecks.trans hchecked⟩
    obtain ⟨r', hrun, -⟩ := Compute.runOn_discard_cases htell
    obtain ⟨-, hz, hchecks'⟩ := overlooks_call hmid.1 hy hrun
    obtain ⟨hu, hchecks''⟩ := overlooks_closes hz hend.closes
    refine ⟨hchecks''.trans (hchecks'.trans hmid.2), fun hs => absurd hs (Option.some_ne_none _),
      ?_⟩
    rintro _ ⟨⟩
    rw [Survey.see_of_changed hchanged]
    have hsame : x.store.heap = v.store.heap := by
      rw [hheap, hset]
      rfl
    dsimp only at hcall hu ⊢
    rw [hsame] at hcall hu ⊢
    rw [hcall]
    exact ⟨rfl, hu⟩

end Host

/-! ## Vigils -/

/-- A stretch of a run with the checks of a collection watch, and what came of each of them.  In
between nothing happens to the watch. -/
abbrev Host.Vigil (H : Host κ σ) (w : WatcherId) :
    Tree κ σ → List (Option Sighting) → Tree κ σ → Prop :=
  (surveys κ).Vigil (·.Sees w) H w

namespace Host.Vigil

variable {H : Host κ σ} {t u : Tree κ σ} {cs : List (Option Sighting)}

/-- The checks that succeeded are an account of what the watch keeps. -/
theorem account (h : H.Vigil w t cs u) (ht : t.survey? w = .none) :
    (u.survey? w = .none → cs = []) ∧ ∀ S, u.survey? w = some S → Account cs.reduceOption S := by
  induction h with
  | none => exact ⟨fun _ => rfl, fun S hS => by cases ht.symm.trans hS⟩
  | @aside u v cs h haside ih =>
    obtain ⟨hempty, haccount⟩ := ih
    cases hu : u.survey? w with
    | none =>
      cases hempty hu
      exact ⟨fun _ => rfl, fun S hS => .fresh (haside.keeps.fresh hu hS)⟩
    | some S =>
      have hv := haside.keeps.kept hu
      refine ⟨fun hnone => (by cases hnone.symm.trans hv), fun S' hS' => ?_⟩
      cases hv.symm.trans hS'
      exact haccount S hu
  | @visit u v cs limit s r h hphase hrun hsees ih =>
    obtain ⟨S, hu⟩ := hsees.exists_survey?
    have haccount := ih.2 S hu
    obtain ⟨-, hfailed, hseen⟩ := survey?_of_sees hphase hu haccount.leaf hsees
    rw [List.reduceOption_append]
    cases s with
    | none =>
      have hv := hfailed rfl
      refine ⟨fun hnone => (by cases hnone.symm.trans hv), fun S' hS' => ?_⟩
      cases hv.symm.trans hS'
      simpa using haccount
    | some s =>
      obtain ⟨hreport, hv⟩ := hseen s rfl
      refine ⟨fun hnone => (by cases hnone.symm.trans hv), fun S' hS' => ?_⟩
      cases hv.symm.trans hS'
      exact .see haccount hreport

/-- The journal notes the checks. -/
theorem checksOf_eq (h : H.Vigil w t cs u) (ht : t.survey? w = .none) :
    (surveys κ).Foreign w u ∨ u.checksOf w = t.checksOf w + cs.length :=
  Keepsake.Vigil.checksOf_eq h fun {_ _ u _ _} h hphase hsees => by
    obtain ⟨S, hu⟩ := hsees.exists_survey?
    have haccount := (account h ht).2 S hu
    exact ⟨⟨S, hu⟩, (survey?_of_sees hphase hu haccount.leaf hsees).1⟩

end Host.Vigil

namespace Host

variable {H : Host κ σ}

/-- Every run is a vigil. -/
theorem vigil_of_run {limit : ℕ} {p : Program κ σ α} {t u : Tree κ σ} {r : Except Error α}
    (h : H.run limit p t = some (r, u)) : ∃ cs, H.Vigil w t cs u :=
  Keepsake.Vigil.of_run (surveys κ) (·.Sees w) w
    (fun {_ t _ _ _} hphase hS h => by
      have hnoted : (t.note (.checked w)).phase = some .digest := hphase
      exact Engine.sees_of_visit hS (fun hrun => (overlooks_call hnoted hS hrun).2.1) h) h

end Host

/-! ## What the listener is told -/

section Told

variable (H : Host κ σ) (w : WatcherId) (store : Store σ) (compiler : Compiler) (config : Config)
  (timed : Bool)

/-- A run is a vigil for each collection watch, with all its checks.  Whatever happens to the
collection in between, and whether or not some checks fail: as long as the count of changes is below
`2 ^ 53`, a check that succeeds calls the listener just if it is the first one to succeed, or if the
view differs from the one that the check before it saw. -/
theorem Host.collection_told_iff_view_changed :
    (∀ {α : Type} (limit : ℕ) (p : Program κ σ α) (r : Except Error α) (u : Tree κ σ),
      H.run limit p (.plant store compiler config timed) = some (r, u) →
      ∃ cs, H.Vigil w (.plant store compiler config timed) cs u) ∧
    ∀ (cs : List (Option Sighting)) (u : Tree κ σ) (S : Survey κ),
      H.Vigil w (.plant store compiler config timed) cs u → u.survey? w = some S →
      cs.length = u.checksOf w ∧ (S.state.changes < 2 ^ 53 → ∀ before s after,
        cs.reduceOption = before ++ s :: after →
        (s.report.isSome = true ↔ ∀ s' ∈ before.getLast?, ¬ s.view.Same s'.view)) := by
  refine ⟨fun limit p r u h => vigil_of_run h, fun cs u S h hS => ⟨?_, ?_⟩⟩
  · rw [(h.checksOf_eq rfl).resolve_left (Keepsake.not_foreign_of_of? hS)]
    exact (Nat.zero_add _).symm
  · intro hchanges before s after hcs
    exact (hcs ▸ (h.account rfl).2 S hS).told_iff hchanges

/-- A run is a vigil for each collection watch.  Whenever the listener is called it gets the value
that was seen just now as the new one.  The old one is the same value the first time, and later a
fresh shallow copy of what the call before got as the new one, with what that held when the call was
made. -/
theorem Host.collection_told_previous_contents :
    (∀ {α : Type} (limit : ℕ) (p : Program κ σ α) (r : Except Error α) (u : Tree κ σ),
      H.run limit p (.plant store compiler config timed) = some (r, u) →
      ∃ cs, H.Vigil w (.plant store compiler config timed) cs u) ∧
    ∀ (cs : List (Option Sighting)) (u : Tree κ σ),
      H.Vigil w (.plant store compiler config timed) cs u → ∀ before s after,
      cs.reduceOption = before ++ s :: after → ∀ ρ, s.report = some ρ →
      ρ.change.new = s.value ∧ s.heap.Keeps ρ.heap ∧
        (told before = [] → ρ.change.old = s.value) ∧
        ∀ s' ∈ (told before).getLast?,
          s'.heap.Copies s.heap ρ.heap ρ.change.old s'.value := by
  refine ⟨fun limit p r u h => vigil_of_run h, fun cs u h before s after hcs ρ hρ => ?_⟩
  obtain ⟨hempty, haccount⟩ := h.account rfl
  cases hu : u.survey? w with
  | none =>
    rw [hempty hu] at hcs
    simp at hcs
  | some S =>
    obtain ⟨hnew, hfirst, hold, hkept⟩ := (hcs ▸ haccount S hu).report_eq hρ
    exact ⟨hnew, hkept, hfirst, hold⟩

end Told

/-! ## A host that shows an array -/

/-- The procedures of a host that shows an array. -/
inductive Curator
  | shown
  | told

/-- A host whose listener puts an element into the array. -/
def curator : Host Curator Unit where
  library := ⟨fun _ _ _ => .endless, fun _ _ => .endless⟩
  report := fun _ host => host
  procedure
    | .shown, _ => return .array 0
    | .told, _ => do
      Program.compute (Store.changing (·.setItems 0 #[.bool true]))
      return .undefined

/-- Makes the array and watches it. -/
def curatorSetup : Program Curator Unit Unit := do
  discard <| Program.compute (Store.making (·.newArray #[]))
  discard <| Program.request (.watchCollection rootId .shown .told)

/-- The tree that the host begins with. -/
def curatorPlant : Tree Curator Unit := .plant ⟨.empty, ()⟩ ⟨.empty, .empty⟩ {} false

/-- What the watch keeps at first. -/
def curatorSurvey : Survey Curator := ⟨rootId, .shown, .told, false, {}, none⟩

/-- The tree with the watch, with these arrays. -/
def curatorTree (arrays : Array (Array Value)) (S : Survey Curator) : Tree Curator Unit :=
  { curatorPlant with
    store := ⟨⟨arrays, #[⟨.empty, none⟩], #[]⟩, ()⟩
    scopes := #[{ data := 0, parent := none, isolated := false, watchers := [0] }]
    watchers := #[S.watcher true] }

/-- The tree in a digest, when the watch was found dirty. -/
def curatorDirty (arrays : Array (Array Value)) (S : Survey Curator)
    (journal : List (Step Curator)) : Tree Curator Unit :=
  { curatorTree arrays S with phase := some .digest, lastDirty := some 0, journal }

/-- A check begins, and the procedure that computes the collection is called. -/
def curatorLook (t : Tree Curator Unit) : Tree Curator Unit :=
  (t.note (.checked 0)).note (.called .shown (.watch rootId))

/-- The tree in the first pass of a digest. -/
def curatorPass : Tree Curator Unit :=
  (curatorTree #[#[]] curatorSurvey).begun.note (.pass rootId)

/-- The first look finds the array empty, and both arguments of the listener are the array. -/
def curatorFirst : Sighting where
  value := .array 0
  heap := curatorPass.store.heap
  report := some ⟨⟨.array 0, .array 0⟩, curatorPass.store.heap⟩

/-- What the watch keeps after the first look. -/
def curatorSeen : Survey Curator := (curatorSurvey.see curatorFirst.heap (.array 0)).2

/-- The tree after the first visit. -/
def curatorVisited : Tree Curator Unit :=
  curatorDirty #[#[.bool true]] curatorSeen
    (.called .told (.changed rootId ⟨.array 0, .array 0⟩) :: (curatorLook curatorPass).journal)

/-- The second look finds the element that the listener put into the array.  The old value is a copy
of the array as it was, and so it is empty. -/
def curatorSecond : Sighting where
  value := .array 0
  heap := curatorVisited.store.heap
  report := some ⟨⟨.array 0, .array 1⟩, ⟨#[#[.bool true], #[]], #[⟨.empty, none⟩], #[]⟩⟩

/-- What the watch keeps after the second look. -/
def curatorSeenAgain : Survey Curator := (curatorSeen.see curatorSecond.heap (.array 0)).2

/-- The tree after the second visit. -/
def curatorVisitedAgain : Tree Curator Unit :=
  curatorDirty #[#[.bool true], #[]] curatorSeenAgain
    (.called .told (.changed rootId ⟨.array 0, .array 1⟩) :: (curatorLook curatorVisited).journal)

lemma curator_run : curator.run 9 curatorSetup curatorPlant =
    some (.ok (), curatorTree #[#[]] curatorSurvey) := by
  cbv

lemma curator_visits_first : runOn ((curator.engine 9).visitWatcher 0) curatorPass =
    some (.ok { dirty := true }, curatorVisited) := rfl

lemma curator_visits_second : runOn ((curator.engine 9).visitWatcher 0) curatorVisited =
    some (.ok { dirty := true }, curatorVisitedAgain) := rfl

lemma curator_sees_first :
    (curator.engine 9).Sees 0 curatorPass (some curatorFirst) curatorVisited :=
  .dirty (v := curatorLook curatorPass)
    (y := curatorDirty #[#[]] curatorSeen (curatorLook curatorPass).journal)
    rfl rfl rfl rfl rfl rfl (.inl ⟨rfl, rfl⟩)

lemma curator_sees_second :
    (curator.engine 9).Sees 0 curatorVisited (some curatorSecond) curatorVisitedAgain :=
  .dirty (v := curatorLook curatorVisited)
    (y := curatorDirty #[#[.bool true], #[]] curatorSeenAgain (curatorLook curatorVisited).journal)
    rfl rfl rfl rfl rfl rfl (.inl ⟨rfl, rfl⟩)

/-- The array is watched, and looked at twice. -/
lemma curator_vigil :
    curator.Vigil 0 curatorPlant [some curatorFirst, some curatorSecond] curatorVisitedAgain := by
  have hC := (surveys Curator).lawful_concern Unit 0
  obtain ⟨cs, hsetup⟩ := Host.vigil_of_run (w := 0) curator_run
  have hchecks : cs.length = 0 := by
    have hS : (curatorTree #[#[]] curatorSurvey).survey? 0 = some curatorSurvey := rfl
    have hnone : (curatorTree #[#[]] curatorSurvey).checksOf 0 = 0 := rfl
    have heq := (hsetup.checksOf_eq rfl).resolve_left (Keepsake.not_foreign_of_of? hS)
    rw [hnone] at heq
    omega
  rw [List.eq_nil_of_length_eq_zero hchecks] at hsetup
  have hpass : ((surveys Curator).concern Unit 0).Aside
      (curatorTree #[#[]] curatorSurvey).begun curatorPass :=
    ⟨.of_frame rfl, .of_watcher?_eq rfl rfl⟩
  have hbegun := (hsetup.aside (hC.aside_begun _)).aside hpass
  have hfirst := hbegun.visit rfl curator_visits_first curator_sees_first
  exact hfirst.visit rfl curator_visits_second curator_sees_second

/-- The listener is called at both looks, at the second one since an element has come. -/
theorem curator_tells_of_element : ∃ cs,
    curator.Vigil 0 curatorPlant cs (curatorTree #[#[]] curatorSurvey) ∧
      [some curatorFirst, some curatorSecond].length = curatorVisitedAgain.checksOf 0 ∧
      curatorFirst.report.isSome = true ∧ curatorSecond.report.isSome = true ∧
      ¬ curatorSecond.view.Same curatorFirst.view := by
  obtain ⟨hruns, hvigils⟩ :=
    curator.collection_told_iff_view_changed 0 ⟨.empty, ()⟩ ⟨.empty, .empty⟩ {} false
  obtain ⟨cs, hsetup⟩ := hruns 9 curatorSetup _ _ curator_run
  obtain ⟨hlength, htold⟩ := hvigils _ _ curatorSeenAgain curator_vigil rfl
  have hchanges : curatorSeenAgain.state.changes < 2 ^ 53 := by
    change 3 < 2 ^ 53
    norm_num
  have hfirst := (htold hchanges [] curatorFirst [some curatorSecond].reduceOption rfl).2
    fun _ hs => (by cases hs)
  have hsecond := htold hchanges [curatorFirst] curatorSecond [] rfl
  exact ⟨cs, hsetup, hlength, hfirst, rfl, hsecond.1 rfl _ rfl⟩

/-- The old value is the array itself at first, and then a fresh copy of what it was. -/
theorem curator_told_of_copy : ∃ cs,
    curator.Vigil 0 curatorPlant cs (curatorTree #[#[]] curatorSurvey) ∧
      (∀ ρ, curatorFirst.report = some ρ → ρ.change.old = .array 0) ∧
      ∀ ρ, curatorSecond.report = some ρ → ρ.change.new = .array 0 ∧
        curatorFirst.heap.Copies curatorSecond.heap ρ.heap ρ.change.old (.array 0) := by
  obtain ⟨hruns, hvigils⟩ :=
    curator.collection_told_previous_contents 0 ⟨.empty, ()⟩ ⟨.empty, .empty⟩ {} false
  obtain ⟨cs, hsetup⟩ := hruns 9 curatorSetup _ _ curator_run
  have htold := hvigils _ _ curator_vigil
  refine ⟨cs, hsetup, fun ρ hρ => ?_, fun ρ hρ => ?_⟩
  · obtain ⟨-, -, hold, -⟩ := htold [] curatorFirst [some curatorSecond].reduceOption rfl ρ hρ
    exact hold rfl
  · obtain ⟨hnew, -, -, hold⟩ := htold [curatorFirst] curatorSecond [] rfl ρ hρ
    exact ⟨hnew, hold _ rfl⟩

end DataBinding
