import DataBinding.Proofs.Concerns

/-!
# What a watcher keeps

Some watchers keep something from one check to the next besides the record of what they reported: a
watch of inputs the values that these had, a collection watch a view of the collection.  A keepsake
says how that is read off a watcher (`Keepsake`).

Only the checks of a watcher change what it keeps.  Whatever else happens to a tree overlooks the
keepsake (`Keepsake.Overlooks`): it stays as it is, the watcher is not checked, and if the watcher
was not registered before then nothing has been seen yet.  So to overlook a keepsake is what a
lawful concern keeps (`Keepsake.lawful_concern`), and the procedures that are called in the course
of a check overlook it as well (`Keepsake.overlooks_call`).

Hence every run of a host is a vigil (`Keepsake.Vigil.of_run`): checks of the watcher, each with
what came of it, and in between whatever does not concern it.
-/

namespace DataBinding

open Compute (runOn)

variable {κ σ S : Type} {w : WatcherId}

/-- Whether a step is a check of the watcher. -/
def Step.checks (w : WatcherId) : Step κ → Bool
  | .checked x => x == w
  | _ => false

/-- How often the watcher was checked. -/
def Tree.checksOf (t : Tree κ σ) (w : WatcherId) : ℕ := t.journal.countP (Step.checks w)

/-- Something that watchers of some kinds keep, and what it is when they have not been checked.  A
watcher that is taken back has it still. -/
structure Keepsake (κ S : Type) where
  read : Watcher κ → Option S
  applies : WatchKind κ → Bool
  Fresh : S → Prop
  read_eq_none_iff : ∀ {watcher}, read watcher = none ↔ applies watcher.kind = false
  read_inactive : ∀ watcher : Watcher κ, read { watcher with active := false } = read watcher
  applies_of_forget : ∀ {a b}, a.forget = b.forget → applies a = applies b
  applies_collection : ∀ watch listener state watch' listener' state',
    applies (.collection watch listener state) = applies (.collection watch' listener' state')
  applies_member : ∀ watch g index, applies (.member watch g index) = false
  fresh_of_read : ∀ {watcher s}, read watcher = some s → watcher.kind.forget = watcher.kind →
    watcher.last = none → Fresh s

namespace Keepsake

variable (K : Keepsake κ S) {t u v : Tree κ σ} {s : S}

/-- What the watcher keeps, if it is registered and of such a kind. -/
def of? (t : Tree κ σ) (w : WatcherId) : Option S := (t.watcher? w).bind K.read

/-- A watcher is registered under that name, but it keeps nothing of the kind. -/
def Foreign (w : WatcherId) (t : Tree κ σ) : Prop :=
  ∃ watcher, t.watcher? w = some watcher ∧ K.read watcher = none

/-- Nothing happens to the watcher: what it keeps stays as it is, it is not checked, and if it is
only now registered nothing was seen yet. -/
structure Overlooks (w : WatcherId) (t u : Tree κ σ) : Prop where
  kept : ∀ {s}, K.of? t w = some s → K.of? u w = some s
  fresh : ∀ {s}, K.of? t w = none → K.of? u w = some s → K.Fresh s
  foreign : K.Foreign w t → K.Foreign w u
  checks : K.Foreign w u ∨ u.checksOf w = t.checksOf w

variable {K}

lemma not_foreign_of_of? (hs : K.of? t w = some s) : ¬ K.Foreign w t := by
  rintro ⟨watcher, hw, hnone⟩
  rw [of?, hw, Option.bind_some, hnone] at hs
  cases hs

instance : IsPreorder (Tree κ σ) (K.Overlooks w) where
  refl t :=
    { kept := id
      fresh := fun hnone hs => by cases hnone.symm.trans hs
      foreign := id
      checks := .inr rfl }
  trans t u v h h' :=
    { kept := fun hs => h'.kept (h.kept hs)
      fresh := fun {s} hnone hs => by
        cases hu : K.of? u w with
        | none => exact h'.fresh hu hs
        | some s' =>
          cases hs.symm.trans (h'.kept hu)
          exact h.fresh hnone hu
      foreign := fun hforeign => h'.foreign (h.foreign hforeign)
      checks := by
        rcases h'.checks with hv | hv
        · exact .inl hv
        · exact h.checks.imp h'.foreign hv.trans }

namespace Overlooks

lemma checksOf_eq (h : K.Overlooks w t u) (hs : K.of? u w = some s) :
    u.checksOf w = t.checksOf w :=
  h.checks.resolve_left (not_foreign_of_of? hs)

/-- What there is of the watcher stays, and what comes new is fresh. -/
lemma of_watcher (hkept : ∀ {watcher}, t.watcher? w = some watcher →
      ∃ watcher', u.watcher? w = some watcher' ∧ K.read watcher' = K.read watcher)
    (hfresh : ∀ {watcher s}, t.watcher? w = none → u.watcher? w = some watcher →
      K.read watcher = some s → K.Fresh s)
    (hchecks : u.checksOf w = t.checksOf w) : K.Overlooks w t u where
  kept {s} hs := by
    obtain ⟨watcher, hw, hs⟩ := Option.bind_eq_some_iff.1 hs
    obtain ⟨watcher', hw', heq⟩ := hkept hw
    exact Option.bind_eq_some_iff.2 ⟨watcher', hw', heq.trans hs⟩
  fresh {s} hnone hs := by
    obtain ⟨watcher, hw, hws⟩ := Option.bind_eq_some_iff.1 hs
    cases ht : t.watcher? w with
    | none => exact hfresh ht hw hws
    | some before =>
      obtain ⟨watcher', hw', heq⟩ := hkept ht
      cases hw.symm.trans hw'
      rw [of?, ht, Option.bind_some, ← heq, hws] at hnone
      cases hnone
  foreign := by
    rintro ⟨watcher, hw, hnone⟩
    obtain ⟨watcher', hw', heq⟩ := hkept hw
    exact ⟨watcher', hw', heq.trans hnone⟩
  checks := .inr hchecks

lemma of_watcher?_eq (hw : u.watcher? w = t.watcher? w) (hchecks : u.checksOf w = t.checksOf w) :
    K.Overlooks w t u :=
  of_watcher (fun h => ⟨_, hw.trans h, rfl⟩) (fun ht hu _ => by cases hu.symm.trans (hw.trans ht))
    hchecks

/-- Some watcher changes, but not one that keeps anything. -/
lemma of_modifyWatcher {x : WatcherId} {watcher : Watcher κ} {f : Watcher κ → Watcher κ}
    (hx : t.watcher? x = some watcher) (hother : ¬ (x = w ∧ K.applies watcher.kind = true))
    (hf : K.applies (f watcher).kind = K.applies watcher.kind) :
    K.Overlooks w t (t.modifyWatcher x f) := by
  by_cases hxw : w = x
  · subst hxw
    have hkind : K.applies watcher.kind = false :=
      Bool.eq_false_iff.2 fun h => hother ⟨rfl, h⟩
    have hself : (t.modifyWatcher w f).watcher? w = some (f watcher) := by
      rw [Tree.watcher?_modifyWatcher_self, hx]
      rfl
    refine of_watcher (fun {before} hw => ⟨_, hself, ?_⟩) (fun ht => by cases hx.symm.trans ht) rfl
    cases hx.symm.trans hw
    rw [K.read_eq_none_iff.2 hkind, K.read_eq_none_iff.2 (hf.trans hkind)]
  · exact of_watcher?_eq (Tree.watcher?_modifyWatcher_of_ne hxw f) rfl

lemma removeWatcher (t : Tree κ σ) (x : WatcherId) : K.Overlooks w t (t.removeWatcher x) := by
  have hjournal : (t.removeWatcher x).checksOf w = t.checksOf w := by
    rw [Tree.checksOf, Tree.journal_removeWatcher, Tree.checksOf]
  by_cases hxw : w = x
  · subst hxw
    have hself := Tree.watcher?_removeWatcher_self t w
    refine of_watcher (fun {watcher} hw => ⟨_, hself.trans (congrArg _ hw), ?_⟩)
      (fun ht hu _ => ?_) hjournal
    · exact K.read_inactive watcher
    · rw [hself, ht] at hu
      cases hu
  · exact of_watcher?_eq (Tree.watcher?_removeWatcher_of_ne t hxw) hjournal

lemma addWatcher (t : Tree κ σ) (s : ScopeId) {kind : WatchKind κ} (byValue : Bool)
    (hkind : kind.forget = kind) : K.Overlooks w t (t.addWatcher s kind byValue).2 := by
  refine of_watcher (fun {watcher} hw => ⟨watcher, ?_, rfl⟩) (fun {watcher s} hnone hw hs => ?_) rfl
  · have hlt : w ≠ t.watchers.size := (Tree.lt_size_of_watcher? hw).ne
    rw [← hw]
    simp [Tree.addWatcher, Tree.watcher?, Array.getElem?_push, hlt]
  · rcases Tree.watcher?_addWatcher_cases hw with hw | ⟨-, rfl⟩
    · cases hnone.symm.trans hw
    · exact K.fresh_of_read hs hkind rfl

lemma formGroup (t : Tree κ σ) (s : ScopeId) (watches : List κ) (listener : κ) :
    K.Overlooks w t (t.formGroup s watches listener).2 := by
  have hwatcher := Tree.watcher?_addMembers (t.addGroup listener watches.length).2 s
    (t.addGroup listener watches.length).1 0 watches w
  have hchecks : (t.formGroup s watches listener).2.checksOf w = t.checksOf w := by
    obtain ⟨_, _, _, heq, -⟩ := (t.addGroup listener watches.length).2.addMembers_cases s
      (t.addGroup listener watches.length).1 0 watches
    exact congrArg (·.checksOf w) heq
  refine of_watcher (fun {watcher} hw => ⟨watcher, ?_, rfl⟩) (fun {watcher s} hnone hw hs => ?_)
    hchecks
  · exact hwatcher.trans ((if_pos (Tree.lt_size_of_watcher? hw)).trans hw)
  · replace hw := hwatcher.symm.trans hw
    split at hw
    · cases hnone.symm.trans hw
    · obtain ⟨watch, -, rfl⟩ := Option.map_eq_some_iff.1 hw
      rw [K.read_eq_none_iff.2 (K.applies_member ..)] at hs
      cases hs

lemma checked {x : WatcherId} {watcher : Watcher κ} (hx : t.watcher? x = some watcher)
    (hother : ¬ (x = w ∧ K.applies watcher.kind = true)) :
    K.Overlooks w t (t.note (.checked x)) := by
  by_cases hxw : x = w
  · subst hxw
    have hkind : K.applies watcher.kind = false :=
      Bool.eq_false_iff.2 fun h => hother ⟨rfl, h⟩
    exact
      { kept := id
        fresh := fun hnone hs => by cases hnone.symm.trans hs
        foreign := id
        checks := .inl ⟨watcher, hx, K.read_eq_none_iff.2 hkind⟩ }
  · exact of_watcher?_eq rfl (by simp [Tree.checksOf, Tree.note, Step.checks, hxw])

end Overlooks

/-! ## The concern -/

/-- The concern of a watcher that keeps something. -/
def concern (K : Keepsake κ S) (σ : Type) (w : WatcherId) : Concern κ σ where
  watcher x kind := x = w ∧ K.applies kind = true
  group _ := False
  keeps := K.Overlooks w

instance : IsPreorder (Tree κ σ) (K.concern σ w).keeps :=
  inferInstanceAs (IsPreorder (Tree κ σ) (K.Overlooks w))

lemma lawful_concern (K : Keepsake κ S) (σ : Type) (w : WatcherId) : (K.concern σ w).Lawful where
  inert {t u} hwatchers _ _ hjournal := by
    refine .of_watcher?_eq (by rw [Tree.watcher?, hwatchers, Tree.watcher?]) ?_
    rcases hjournal with hjournal | ⟨step, hstep, hjournal⟩
    · rw [Tree.checksOf, hjournal, Tree.checksOf]
    · have hother : Step.checks w step = false := by
        cases step with
        | checked => cases hstep
        | _ => rfl
      rw [Tree.checksOf, hjournal, List.countP_cons, hother, Tree.checksOf]
      rfl
  enqueue t q s work _ := .of_watcher?_eq rfl rfl
  dequeue h _ := by
    obtain ⟨_, rfl⟩ := Tree.eq_of_dequeue? h
    exact .of_watcher?_eq rfl rfl
  addWatcher t s kind byValue _ hkind := .addWatcher t s byValue hkind
  formGroup := .formGroup
  removeWatcher := .removeWatcher
  checked := .checked
  setKind hx hother hkind := .of_modifyWatcher hx hother (K.applies_of_forget hkind)
  record {t u x watcher new change} hx hother h := by
    rcases Tree.record_cases h with ⟨-, rfl⟩ | ⟨_, frozen, store, -, rfl⟩
    · exact refl_of (K.Overlooks w) u
    · have hmodified : K.Overlooks w t (t.modifyWatcher x ({ · with last := some frozen })) :=
        .of_modifyWatcher hx hother rfl
      refine trans_of (K.Overlooks w) hmodified ?_
      exact .of_watcher?_eq rfl rfl
  modifyGroup t g f _ := .of_watcher?_eq rfl rfl
  watcher_of_forget h := fun ⟨hx, hkind⟩ => ⟨hx, (K.applies_of_forget h).trans hkind⟩
  watcher_of_collection := fun ⟨hx, hkind⟩ => ⟨hx, (K.applies_collection ..).trans hkind⟩
  watcher_of_group _ h := h.elim

/-! ## In the course of a check -/

variable {H : Host κ σ} {limit : ℕ}

lemma checksOf_checked (t : Tree κ σ) (w : WatcherId) :
    (t.note (.checked w)).checksOf w = t.checksOf w + 1 := by
  simp [Tree.checksOf, Tree.note, Step.checks]

/-- Inside of a phase the call of a procedure overlooks the watcher. -/
lemma overlooks_call {procedure : κ} {how : Invocation} {r : Except Error Value}
    (hphase : t.phase = some .digest) (hs : K.of? t w = some s)
    (h : runOn ((H.engine limit).call procedure how) t = some (r, u)) :
    u.phase = some .digest ∧ K.of? u w = some s ∧ u.checksOf w = t.checksOf w := by
  have hC := K.lawful_concern σ w
  obtain ⟨hu, haside⟩ :=
    Engine.leads_call hC.concedes_inPhase (H.inPhase_aside hC limit) procedure how h _ hphase
  have hkept := haside.keeps.kept hs
  exact ⟨hu, hkept, haside.keeps.checksOf_eq hkept⟩

lemma overlooks_closes {E : Engine κ σ} (hs : K.of? t w = some s) (h : E.Closes t u) :
    K.of? u w = some s ∧ u.checksOf w = t.checksOf w := by
  have hkept := h.related (K.lawful_concern σ w).concedes.toGrants
  exact ⟨hkept.keeps.kept hs, hkept.keeps.checksOf_eq (hkept.keeps.kept hs)⟩

/-! ## Vigils -/

variable {A : Type} {α : Type}

/-- A stretch of a run with the checks of a watcher, and what came of each of them (`Sees`).  In
between nothing happens to the watcher. -/
inductive Vigil (K : Keepsake κ S) (Sees : Engine κ σ → Tree κ σ → A → Tree κ σ → Prop)
    (H : Host κ σ) (w : WatcherId) : Tree κ σ → List A → Tree κ σ → Prop
  | none (t : Tree κ σ) : Vigil K Sees H w t [] t
  | aside {t u v : Tree κ σ} {as : List A} (h : Vigil K Sees H w t as u)
    (haside : (K.concern σ w).Aside u v) : Vigil K Sees H w t as v
  | visit {t u v : Tree κ σ} {as : List A} {limit : ℕ} {a : A} {r : Except Error Findings}
    (h : Vigil K Sees H w t as u) (hphase : u.phase = some .digest)
    (hrun : runOn ((H.engine limit).visitWatcher w) u = some (r, v))
    (hsees : Sees (H.engine limit) u a v) : Vigil K Sees H w t (as ++ [a]) v

namespace Vigil

variable {Sees : Engine κ σ → Tree κ σ → A → Tree κ σ → Prop} {as as' : List A}

lemma trans (h : K.Vigil Sees H w t as u) (h' : K.Vigil Sees H w u as' v) :
    K.Vigil Sees H w t (as ++ as') v := by
  induction h' with
  | none =>
    rw [List.append_nil]
    exact h
  | aside _ haside ih => exact ih.aside haside
  | visit _ hphase hrun hsees ih =>
    rw [← List.append_assoc]
    exact ih.visit hphase hrun hsees

/-- The journal notes the checks, if each is one of a watcher that keeps something. -/
theorem checksOf_eq (h : K.Vigil Sees H w t as u)
    (hsees : ∀ {limit as u a v}, K.Vigil Sees H w t as u → u.phase = some .digest →
      Sees (H.engine limit) u a v →
      (∃ s, K.of? u w = some s) ∧ v.checksOf w = u.checksOf w + 1) :
    K.Foreign w u ∨ u.checksOf w = t.checksOf w + as.length := by
  induction h with
  | none => exact .inr rfl
  | aside _ haside ih =>
    rcases ih with hforeign | hchecks
    · exact .inl (haside.keeps.foreign hforeign)
    · exact haside.keeps.checks.imp_right fun h => h.trans hchecks
  | visit h hphase _ hseen ih =>
    obtain ⟨⟨s, hs⟩, hchecks⟩ := hsees h hphase hseen
    have hbefore := ih.resolve_left (not_foreign_of_of? hs)
    refine .inr ?_
    rw [hchecks, hbefore, List.length_append, List.length_singleton, Nat.add_assoc]

/-- There is a vigil from the one tree to the other. -/
def Watched (K : Keepsake κ S) (Sees : Engine κ σ → Tree κ σ → A → Tree κ σ → Prop) (H : Host κ σ)
    (w : WatcherId) (t u : Tree κ σ) : Prop := ∃ as, K.Vigil Sees H w t as u

instance : IsPreorder (Tree κ σ) (Watched K Sees H w) where
  refl t := ⟨[], .none t⟩
  trans _ _ _ := by
    rintro ⟨as, h⟩ ⟨as', h'⟩
    exact ⟨as ++ as', h.trans h'⟩

/-- Every run is a vigil, if every visit of the watcher is one that is seen or does nothing. -/
theorem of_run (K : Keepsake κ S) (Sees : Engine κ σ → Tree κ σ → A → Tree κ σ → Prop)
    (w : WatcherId) (hvisit : ∀ {limit : ℕ} {t u : Tree κ σ} {s : S} {r : Except Error Findings},
      t.phase = some .digest → K.of? t w = some s →
      runOn ((H.engine limit).visitWatcher w) t = some (r, u) →
      u = t ∨ ∃ a, Sees (H.engine limit) t a u)
    {p : Program κ σ α} {r : Except Error α} (h : H.run limit p t = some (r, u)) :
    ∃ as, K.Vigil Sees H w t as u := by
  have hways : (K.concern σ w).Ways H (Watched K Sees H w) (Watched K Sees H w) :=
    { aside := fun h => ⟨[], .aside (.none _) h⟩
      amid := fun h => ⟨[], .aside (.none _) h⟩
      visit := by
        rintro limit t u x watcher r hphase hx ⟨rfl, hkind⟩ h
        obtain ⟨s, hs⟩ : ∃ s, K.read watcher = some s := by
          rw [← Option.ne_none_iff_exists', ne_eq, K.read_eq_none_iff, hkind]
          exact Bool.noConfusion
        have hof : K.of? t x = some s := Option.bind_eq_some_iff.2 ⟨watcher, hx, hs⟩
        rcases hvisit hphase hof h with rfl | ⟨a, hsees⟩
        · exact ⟨[], .none u⟩
        · exact ⟨_, .visit (.none t) hphase h hsees⟩
      pass := by
        rintro t u s - - ⟨as, h⟩
        have haside : (K.concern σ w).Aside t (t.note (.pass s)) :=
          ⟨.of_frame rfl, .of_watcher?_eq rfl rfl⟩
        exact ⟨_, (Vigil.aside (.none t) haside).trans h⟩
      task := fun _ _ h => h.elim }
  exact hways.way_of_run (K.lawful_concern σ w) h

end Vigil

end Keepsake

end DataBinding
