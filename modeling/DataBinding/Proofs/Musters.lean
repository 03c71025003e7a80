import DataBinding.Proofs.Concerns

/-!
# Groups over whole runs

A group has its members from the beginning, and only their visits queue its listener, which only a
task of the group calls.  So as long as none of these happens the group is spared: its record, what
its members have recorded, and the number of its tasks stay as they are (`Tree.Spares`).

From the moment on when it is formed, a run is for a group the rest of the pass in which that
happened (`Host.Debut`), and then passes and calls of the listener with whatever else the host does
in between (`Host.Muster`).  A career is all of that (`Host.Career`), and every run in which the
group is formed is one (`Host.career_of_run`).
-/

namespace DataBinding

open Compute (Leads runOn runOn_bind_cases)
open DataBinding.Tree (InPhase)

variable {κ σ α : Type} {g : GroupId}

/-! ## Tasks of a group -/

/-- The number of tasks in a queue that are to call the listener of a group. -/
def Queues.due (qs : Queues κ) (q : Queue) (g : GroupId) : ℕ :=
  (qs.tasks q).countP (·.work.group? = some g)

lemma Step.isPass_of_ofPass {step : Step κ} (h : step.ofPass = false) : step.isPass = false := by
  cases step <;> first | rfl | cases h

lemma Queues.due_push (qs : Queues κ) (q r : Queue) (s : ScopeId) (work : Work κ) :
    (qs.push r s work).due q g =
      qs.due q g + if q = r ∧ work.group? = some g then 1 else 0 := by
  by_cases hq : q = r
  · subst hq
    simp [due, List.countP_append, List.countP_cons]
  · simp [due, tasks_push_of_ne _ hq, hq]

namespace Tree

variable {t u v : Tree κ σ} {w : WatcherId}

lemma due_of_dequeue? {q : Queue} {task : Task κ} (h : t.dequeue? q = some (task, u)) (r : Queue) :
    t.queues.due r g =
      u.queues.due r g + if r = q ∧ task.work.group? = some g then 1 else 0 := by
  by_cases hr : r = q
  · subst hr
    simp [Queues.due, tasks_of_dequeue? h, List.countP_cons]
  · simp [Queues.due, tasks_of_dequeue?_of_ne h hr, hr]

/-- The group is spared: it stays as it is and keeps its members, with what these have recorded, no
task of the group is queued or begins, and no pass begins. -/
structure Spares (g : GroupId) (t u : Tree κ σ) : Prop where
  group : u.groups[g]? = t.groups[g]?
  member : ∀ {w watcher}, t.watcher? w = some watcher → watcher.kind.group? = some g →
    ∃ active, u.watcher? w = some { watcher with active }
  recruit : ∀ {w}, u.groupOf? w = some g → t.groupOf? w = some g
  due : ∀ q, u.queues.due q g = t.queues.due q g
  passes : u.passCount = t.passCount

instance : IsPreorder (Tree κ σ) (Spares g) where
  refl _ := ⟨rfl, fun hw _ => ⟨_, hw⟩, id, fun _ => rfl, rfl⟩
  trans _ _ _ h h' :=
    { group := h'.group.trans h.group
      member := fun hw hg => by
        obtain ⟨_, hu⟩ := h.member hw hg
        obtain ⟨active, hv⟩ := h'.member hu hg
        exact ⟨active, hv⟩
      recruit := fun hw => h.recruit (h'.recruit hw)
      due := fun q => (h'.due q).trans (h.due q)
      passes := h'.passes.trans h.passes }

namespace Spares

/-- A member of the group was one before, and all but whether it is active was the same. -/
lemma before {watcher : Watcher κ} (h : Spares g t u) (hw : u.watcher? w = some watcher)
    (hg : watcher.kind.group? = some g) :
    ∃ active, t.watcher? w = some { watcher with active } := by
  have hgroupOf : u.groupOf? w = some g := by
    rw [groupOf?, hw]
    exact hg
  obtain ⟨watcher', hbefore, hg'⟩ := Option.bind_eq_some_iff.1 (h.recruit hgroupOf)
  obtain ⟨active, hafter⟩ := h.member hbefore hg'
  cases hw.symm.trans hafter
  exact ⟨watcher'.active, hbefore⟩

lemma of_eq (hwatchers : u.watchers = t.watchers) (hgroups : u.groups[g]? = t.groups[g]?)
    (hdue : ∀ q, u.queues.due q g = t.queues.due q g) (hpasses : u.passCount = t.passCount) :
    Spares g t u where
  group := hgroups
  member {w watcher} hw _ := ⟨watcher.active, by rw [watcher?, hwatchers]; exact hw⟩
  recruit {w} hw := by
    rw [groupOf?, watcher?, hwatchers] at hw
    exact hw
  due := hdue
  passes := hpasses

lemma inert (hwatchers : u.watchers = t.watchers) (hgroups : u.groups = t.groups)
    (hqueues : u.queues = t.queues) (hjournal : u.journal = t.journal ∨
      ∃ step : Step κ, step.ofPass = false ∧ u.journal = step :: t.journal) : Spares g t u := by
  refine .of_eq hwatchers (by rw [hgroups]) (fun _ => by rw [hqueues]) ?_
  rcases hjournal with hjournal | ⟨step, hstep, hjournal⟩
  · rw [Tree.passCount, hjournal, Tree.passCount]
  · rw [Tree.passCount, hjournal, List.countP_cons_of_neg (by simp [Step.isPass_of_ofPass hstep]),
      Tree.passCount]

lemma enqueue (t : Tree κ σ) (q : Queue) (s : ScopeId) {work : Work κ}
    (hwork : ∀ g', work = .group g' → g' ≠ g) : Spares g t (t.enqueue q s work) := by
  have hother : work.group? ≠ some g := by
    cases work with
    | group g' => simpa [Work.group?] using hwork g' rfl
    | _ => simp [Work.group?]
  refine .of_eq rfl rfl (fun r => (Queues.due_push t.queues r q s work).trans ?_) rfl
  rw [if_neg fun h => hother h.2, Nat.add_zero]

lemma dequeue {q : Queue} {task : Task κ} (h : t.dequeue? q = some (task, u))
    (hwork : ∀ g', task.work = .group g' → g' ≠ g) : Spares g t u := by
  have hother : task.work.group? ≠ some g := by
    cases hcase : task.work with
    | group g' => simpa [Work.group?] using hwork g' hcase
    | _ => simp [Work.group?]
  have hdue : ∀ r, u.queues.due r g = t.queues.due r g := fun r => by
    rw [due_of_dequeue? h r, if_neg fun h => hother h.2, Nat.add_zero]
  obtain ⟨rest, rfl⟩ := eq_of_dequeue? h
  exact .of_eq rfl rfl hdue rfl

/-- Some watcher changes, but it is no member of the group. -/
lemma modifyWatcher {x : WatcherId} {watcher : Watcher κ} {f : Watcher κ → Watcher κ}
    (hx : t.watcher? x = some watcher) (hother : watcher.kind.group? ≠ some g)
    (hf : (f watcher).kind.group? = watcher.kind.group?) :
    Spares g t (t.modifyWatcher x f) where
  group := rfl
  member {w before} hw hg := by
    have hne : w ≠ x := by
      rintro rfl
      cases hx.symm.trans hw
      exact hother hg
    exact ⟨before.active, (watcher?_modifyWatcher_of_ne hne f).trans hw⟩
  recruit {w} hw := by
    by_cases hwx : w = x
    · subst hwx
      rw [groupOf?, watcher?_modifyWatcher_self, hx, Option.map_some, Option.bind_some, hf] at hw
      exact absurd hw hother
    · rw [groupOf?, watcher?_modifyWatcher_of_ne hwx] at hw
      exact hw
  due _ := rfl
  passes := rfl

lemma removeWatcher (t : Tree κ σ) (x : WatcherId) : Spares g t (t.removeWatcher x) where
  group := by
    obtain ⟨_, _, _, h, -⟩ := removeWatcher_eq t x
    rw [h]
  member {w watcher} hw _ := by
    by_cases hwx : w = x
    · subst hwx
      exact ⟨false, (watcher?_removeWatcher_self t w).trans (congrArg _ hw)⟩
    · exact ⟨watcher.active, (watcher?_removeWatcher_of_ne t hwx).trans hw⟩
  recruit {w} hw := by
    by_cases hwx : w = x
    · subst hwx
      rw [groupOf?, watcher?_removeWatcher_self, Option.bind_map] at hw
      exact hw
    · rw [groupOf?, watcher?_removeWatcher_of_ne t hwx] at hw
      exact hw
  due _ := by
    obtain ⟨_, _, _, h, -⟩ := removeWatcher_eq t x
    rw [h]
  passes := congrArg (List.countP _) (journal_removeWatcher t x)

lemma addWatcher (t : Tree κ σ) (s : ScopeId) {kind : WatchKind κ} (byValue : Bool)
    (hkind : kind.group? ≠ some g) : Spares g t (t.addWatcher s kind byValue).2 where
  group := rfl
  member {w watcher} hw _ := by
    have hlt : w ≠ t.watchers.size := (lt_size_of_watcher? hw).ne
    refine ⟨watcher.active, ?_⟩
    rw [← hw]
    simp [Tree.addWatcher, watcher?, Array.getElem?_push, hlt]
  recruit {w} hw := by
    rw [groupOf?_addWatcher] at hw
    split at hw
    · exact absurd hw hkind
    · exact hw
  due _ := rfl
  passes := rfl

lemma formGroup (t : Tree κ σ) (s : ScopeId) (watches : List κ) (listener : κ)
    (hg : g ≠ t.groups.size) : Spares g t (t.formGroup s watches listener).2 := by
  obtain ⟨_, _, _, heq, -, hgroupOf⟩ := (t.addGroup listener watches.length).2.addMembers_cases s
    t.groups.size 0 watches
  have hwatcher := watcher?_addMembers (t.addGroup listener watches.length).2 s t.groups.size 0
    watches
  exact
    { group := by
        rw [Tree.formGroup, groups_addMembers]
        exact (Array.getElem?_push).trans (if_neg hg)
      member := fun {w watcher} hw _ =>
        ⟨watcher.active, (hwatcher w).trans ((if_pos (lt_size_of_watcher? hw)).trans hw)⟩
      recruit := fun {w} hw => by
        replace hw := (hgroupOf w).symm.trans hw
        split at hw
        · exact absurd (Option.some.inj hw).symm hg
        · exact hw
      due := fun q => congrArg (·.queues.due q g) heq
      passes := congrArg (·.passCount) heq }

lemma record {x : WatcherId} {watcher : Watcher κ} {new : Value} {change : Option Change}
    (hx : t.watcher? x = some watcher) (hother : watcher.kind.group? ≠ some g)
    (h : t.record x new = some (change, u)) : Spares g t u := by
  rcases record_cases h with ⟨-, rfl⟩ | ⟨_, frozen, store, -, rfl⟩
  · exact refl_of (Spares g) u
  · have hmodified : Spares g t (t.modifyWatcher x ({ · with last := some frozen })) :=
      .modifyWatcher hx hother rfl
    refine trans_of (Spares g) hmodified ?_
    exact .of_eq rfl rfl (fun _ => rfl) rfl

end Spares

/-- Nothing is known of the group. -/
structure Lacks (g : GroupId) (t : Tree κ σ) : Prop where
  group : t.groups[g]? = none
  member : ∀ w, t.groupOf? w ≠ some g
  due : ∀ q, t.queues.due q g = 0

lemma Lacks.of_spares (h : t.Lacks g) (hspares : Spares g t u) : u.Lacks g where
  group := hspares.group.trans h.group
  member w hw := h.member w (hspares.recruit hw)
  due q := (hspares.due q).trans (h.due q)

/-- The group was formed, and since then it was spared. -/
def Founded (g : GroupId) (t : Tree κ σ) : Prop :=
  ∃ v s watches listener, v.groups.size = g ∧ Lacks g v ∧
    Spares g (v.formGroup s watches listener).2 t

/-- The group is spared, or is founded if nothing was known of it. -/
structure Befalls (g : GroupId) (t u : Tree κ σ) : Prop where
  spares : t.groups[g]? ≠ none → Spares g t u
  founded : t.Lacks g → u.Lacks g ∨ u.Founded g

lemma Spares.befalls (h : Spares g t u) : Befalls g t u :=
  ⟨fun _ => h, fun ht => .inl (ht.of_spares h)⟩

lemma Founded.ne_none (h : t.Founded g) : t.groups[g]? ≠ none := by
  obtain ⟨v, s, watches, listener, rfl, -, hspares⟩ := h
  rw [hspares.group, Tree.formGroup, groups_addMembers]
  simp [addGroup]

instance : IsPreorder (Tree κ σ) (Befalls g) where
  refl t := (refl_of (Spares g) t).befalls
  trans t u v h h' :=
    { spares := fun ht =>
        have hspares := h.spares ht
        trans_of (Spares g) hspares (h'.spares (hspares.group ▸ ht))
      founded := fun ht => by
        rcases h.founded ht with hu | hu
        · exact h'.founded hu
        · have hspares := h'.spares hu.ne_none
          obtain ⟨x, s, watches, listener, hx, hlacks, hsince⟩ := hu
          exact .inr ⟨x, s, watches, listener, hx, hlacks, trans_of (Spares g) hsince hspares⟩ }

lemma befalls_formGroup (t : Tree κ σ) (s : ScopeId) (watches : List κ) (listener : κ) :
    Befalls g t (t.formGroup s watches listener).2 := by
  by_cases hg : g = t.groups.size
  · subst hg
    refine ⟨fun ht => absurd (Array.getElem?_eq_none le_rfl) ht, fun ht => .inr ?_⟩
    exact ⟨t, s, watches, listener, rfl, ht, refl_of (Spares _) _⟩
  · exact (Spares.formGroup t s watches listener hg).befalls

end Tree

open DataBinding.Tree (Spares Befalls)

/-! ## The concern -/

/-- The concern of a group. -/
def Concern.ofGroup (κ σ : Type) (g : GroupId) : Concern κ σ where
  watcher _ kind := kind.group? = some g
  group g' := g' = g
  keeps := Befalls g

instance : IsPreorder (Tree κ σ) (Concern.ofGroup κ σ g).keeps :=
  inferInstanceAs (IsPreorder (Tree κ σ) (Befalls g))

lemma Concern.lawful_ofGroup (κ σ : Type) (g : GroupId) : (Concern.ofGroup κ σ g).Lawful where
  inert hwatchers hgroups hqueues hjournal :=
    (Spares.inert hwatchers hgroups hqueues hjournal).befalls
  enqueue t q s {work} hwork := (Spares.enqueue t q s hwork).befalls
  dequeue h hwork := (Spares.dequeue h hwork).befalls
  addWatcher t s {kind} byValue hkind _ :=
    (Spares.addWatcher t s byValue (hkind ▸ nofun)).befalls
  formGroup := Tree.befalls_formGroup
  removeWatcher t w := (Spares.removeWatcher t w).befalls
  checked {t w _} _ _ :=
    Spares.befalls (u := t.note (.checked w)) (.of_eq rfl rfl (fun _ => rfl) rfl)
  setKind hw hother hkind :=
    (Spares.modifyWatcher hw hother (Tree.group?_of_forget hkind)).befalls
  record hw hother h := (Spares.record hw hother h).befalls
  modifyGroup t g' f hother := by
    refine Spares.befalls (u := t.modifyGroup g' f) (.of_eq rfl ?_ (fun _ => rfl) rfl)
    rw [Tree.modifyGroup, Array.getElem?_modify]
    exact if_neg hother
  watcher_of_forget h hkind := (Tree.group?_of_forget h).trans hkind
  watcher_of_collection h := h
  watcher_of_group hkind hg := hg ▸ hkind

/-! ## Turns -/

/-- A stretch in which the host can change the heap. -/
structure Stretch where
  before : Heap
  after : Heap

/-- What can concern a group: something else happens; a member is visited, with its place in the
group, the time it takes to compute its value, that value unless it fails, and the change if one is
handed on to the group; or the listener is called. -/
inductive Turn where
  | aside (elsewhere : Stretch)
  | probe (index : ℕ) (looking : Stretch) (value : Option Value) (handed : Option Change)
  | call (change : Change) (hearing : Stretch)

namespace Engine

/-- A member of a group looks at its value, and the group is spared. -/
structure Glances (E : Engine κ σ) (g : GroupId) (w : WatcherId) (index : ℕ) (s : ScopeId)
    (t : Tree κ σ) (r : Except Error Value) (u : Tree κ σ) : Prop where
  run : ∃ watcher watch, t.watcher? w = some watcher ∧ watcher.scope = s ∧
    watcher.kind = .member watch g index ∧
    runOn (E.call watch (.watch s)) (t.note (.checked w)) = some (r, u)
  spares : t.Spares g u

/-- What comes of the visit of a member.  If its value cannot be computed the host is handed the
error.  Else the value is compared with the record, and a change is handed on to the group, unless
the arrays of the group refuse it. -/
inductive Probes (E : Engine κ σ) (g : GroupId) (w : WatcherId) (t : Tree κ σ) :
    Turn → Tree κ σ → Prop
  | failed {index : ℕ} {s : ScopeId} {e : Error} {v u : Tree κ σ}
    (h : E.Glances g w index s t (.error e) v)
    (herror : runOn (E.reportError e) v = some (.ok (), u)) (hspares : v.Spares g u) :
    Probes E g w t (.probe index ⟨t.store.heap, u.store.heap⟩ none none) u
  | same {index : ℕ} {s : ScopeId} {value : Value} {v u : Tree κ σ}
    (h : E.Glances g w index s t (.ok value) v) (hrecord : v.record w value = some (none, u)) :
    Probes E g w t (.probe index ⟨t.store.heap, v.store.heap⟩ (some value) none) u
  | refused {index : ℕ} {s : ScopeId} {value : Value} {change : Change} {e : Error}
    {v x y u : Tree κ σ} (h : E.Glances g w index s t (.ok value) v)
    (hrecord : v.record w value = some (some change, x))
    (hreact : runOn (reactMember s g index change) { x with lastDirty := some w } =
      some (.error e, y))
    (herror : runOn (E.reportError e) y = some (.ok (), u)) (hspares : y.Spares g u) :
    Probes E g w t (.probe index ⟨t.store.heap, v.store.heap⟩ (some value) none) u
  | handed {index : ℕ} {s : ScopeId} {value : Value} {change : Change} {v x u : Tree κ σ}
    (h : E.Glances g w index s t (.ok value) v)
    (hrecord : v.record w value = some (some change, x))
    (hreact : runOn (reactMember s g index change) { x with lastDirty := some w } =
      some (.ok (), u)) :
    Probes E g w t (.probe index ⟨t.store.heap, v.store.heap⟩ (some value) (some change)) u

/-- The first task for the next pass calls the listener of the group. -/
inductive Rings (E : Engine κ σ) (g : GroupId) (t : Tree κ σ) : Turn → Tree κ σ → Prop
  | intro {task : Task κ} {group : Group κ} {change : Change} {r : Except Error Unit}
    {v x y u : Tree κ σ} (hnext : t.dequeue? .async = some (task, v))
    (hwork : task.work = .group g) (hgroup : v.groups[g]? = some group)
    (hchange : v.groupChange g group = (change, x))
    (htell : runOn (E.tell group.listener task.scope change) x = some (r, y))
    (hspares : x.Spares g y) (hend : E.Contains r (y.unscheduleGroup g) u)
    (hends : (y.unscheduleGroup g).Spares g u) :
    Rings E g t (.call change ⟨x.store.heap, u.store.heap⟩) u

end Engine

namespace Host

variable {H : Host κ σ} {limit : ℕ} {t u v : Tree κ σ} {w : WatcherId}

/-- Inside of a phase the call of a procedure spares the group. -/
lemma spares_call {procedure : κ} {how : Invocation} {r : Except Error Value}
    (hphase : t.phase = some .digest) (hgroup : t.groups[g]? ≠ none)
    (h : runOn ((H.engine limit).call procedure how) t = some (r, u)) : t.Spares g u := by
  have hC := Concern.lawful_ofGroup κ σ g
  obtain ⟨-, haside⟩ :=
    Engine.leads_call hC.concedes_inPhase (H.inPhase_aside hC limit) procedure how h _ hphase
  exact haside.keeps.spares hgroup

lemma spares_reportError {e : Error} (hgroup : t.groups[g]? ≠ none)
    (h : runOn ((H.engine limit).reportError e) t = some (.ok (), u)) : t.Spares g u := by
  have hC := Concern.lawful_ofGroup κ σ g
  exact (Engine.leads_reportError hC.concedes.toGrants e h).keeps.spares hgroup

lemma spares_contains {r : Except Error Unit} (hgroup : t.groups[g]? ≠ none)
    (h : (H.engine limit).Contains r t u) : t.Spares g u := by
  rcases h with ⟨-, rfl⟩ | ⟨e, -, herror⟩
  · exact refl_of (Spares g) u
  · exact spares_reportError hgroup herror

lemma groups_of_record {new : Value} {change : Option Change}
    (h : t.record w new = some (change, u)) : u.groups = t.groups := by
  obtain ⟨_, _, rfl⟩ := Tree.eq_of_record h
  rfl

/-- The visit of a member is a probe, or it is not active any more. -/
lemma probes_of_visit {watcher : Watcher κ} {r : Except Error Findings}
    (hphase : t.phase = some .digest) (hgroup : t.groups[g]? ≠ none)
    (hw : t.watcher? w = some watcher) (hmember : watcher.kind.group? = some g)
    (h : runOn ((H.engine limit).visitWatcher w) t = some (r, u)) :
    u = t ∨ ∃ turn, (H.engine limit).Probes g w t turn u := by
  rcases Engine.visit_steps h with ⟨-, rfl⟩ | ⟨-, watcher', r₁, v, hw', hobserve, hrest⟩
  · exact .inl rfl
  cases hw.symm.trans hw'
  obtain ⟨watch, index, hkind⟩ : ∃ watch index, watcher.kind = .member watch g index := by
    cases hcase : watcher.kind with
    | member watch g' index =>
      rw [hcase] at hmember
      cases hmember
      exact ⟨_, _, rfl⟩
    | _ =>
      rw [hcase] at hmember
      cases hmember
  rw [hkind] at hobserve
  replace hobserve : runOn ((H.engine limit).call watch (.watch watcher.scope))
      (t.note (.checked w)) = some (r₁, v) := hobserve
  have hnoted : t.Spares g (t.note (.checked w)) := .of_eq rfl rfl (fun _ => rfl) rfl
  have hspares := trans_of (Spares g) hnoted
    (spares_call (t := t.note (.checked w)) hphase hgroup hobserve)
  have hglance : (H.engine limit).Glances g w index watcher.scope t r₁ v :=
    ⟨⟨watcher, watch, hw, rfl, hkind, hobserve⟩, hspares⟩
  have hgroup' : v.groups[g]? ≠ none := hspares.group ▸ hgroup
  rcases hrest with ⟨e, rfl, herror⟩ |
    ⟨new, rfl, hclean | ⟨change, x, y, r₂, hrecord, hnotify, hend⟩⟩
  · exact .inr ⟨_, .failed hglance herror (spares_reportError hgroup' herror)⟩
  · exact .inr ⟨_, .same hglance hclean⟩
  · obtain ⟨active, hv⟩ := hspares.member hw hmember
    obtain ⟨before, frozen, hbefore, -, -, hx, -⟩ := Tree.record_some_cases hrecord
    cases hv.symm.trans hbefore
    rw [Engine.notify, Compute.runOn_read_bind,
      show Tree.watcher? { x with lastDirty := some w } w = _ from hx] at hnotify
    dsimp only at hnotify
    rw [hkind] at hnotify
    rcases hend with ⟨rfl, rfl⟩ | ⟨e, rfl, herror⟩
    · exact .inr ⟨_, .handed hglance hrecord hnotify⟩
    · refine .inr ⟨_, .refused hglance hrecord hnotify herror (spares_reportError ?_ herror)⟩
      have hgroups : x.groups[g]? ≠ none := groups_of_record hrecord ▸ hgroup'
      obtain ⟨group, hfound⟩ := Option.ne_none_iff_exists'.1 hgroups
      rcases Engine.reactMember_steps (t := { x with lastDirty := some w }) hfound hnotify with
        ⟨_, heap, -, rfl, -⟩ | ⟨_, _, _, -, -, -, hr, -⟩
      · exact hgroups
      · cases hr

/-- A task of the group calls its listener. -/
lemma rings_of_task {task : Task κ} {r : Except Error Unit} (hphase : t.phase = some .digest)
    (hgroup : t.groups[g]? ≠ none) (hnext : t.dequeue? .async = some (task, v))
    (hwork : task.work = .group g)
    (h : runOn ((H.engine limit).contained ((H.engine limit).perform task.scope task.work)) v =
      some (r, u)) : ∃ turn, (H.engine limit).Rings g t turn u := by
  obtain ⟨rest, hv⟩ := Tree.eq_of_dequeue? hnext
  have hgroups : v.groups = t.groups := by rw [hv]; rfl
  obtain ⟨group, hfound⟩ := Option.ne_none_iff_exists'.1 (hgroups ▸ hgroup)
  rw [hwork] at h
  obtain ⟨-, r₁, z, hperform, hend⟩ := Engine.runOn_contained_cases h
  obtain ⟨y, htell, rfl⟩ := Engine.callGroup_steps hfound hperform
  have hbears : (v.groupChange g group).2.groups[g]? ≠ none := by
    simp [Tree.groupChange, Tree.modifyGroup, Array.getElem?_modify, hfound]
  have hphase' : (v.groupChange g group).2.phase = some .digest := by
    rw [hv]
    exact hphase
  obtain ⟨r₂, hcall, -⟩ := Compute.runOn_discard_cases htell
  have hspares := spares_call hphase' hbears hcall
  have hbears' : (y.unscheduleGroup g).groups[g]? ≠ none := by
    have hy : y.groups[g]? ≠ none := hspares.group ▸ hbears
    simpa [Tree.unscheduleGroup, Tree.modifyGroup, Array.getElem?_modify] using hy
  exact ⟨_, .intro hnext hwork hfound rfl htell hspares hend (spares_contains hbears' hend)⟩

end Host

/-! ## Musters -/

/-- The group is there, and its listener is called from passes only. -/
structure Tree.Bears (g : GroupId) (t : Tree κ σ) : Prop where
  group : t.groups[g]? ≠ none
  due : ∀ {q}, q ≠ .async → t.queues.due q g = 0

namespace Tree

variable {t u v : Tree κ σ} {w : WatcherId}

lemma Bears.of_spares (h : t.Bears g) (hspares : Spares g t u) : u.Bears g where
  group := hspares.group ▸ h.group
  due hq := (hspares.due _).trans (h.due hq)

lemma Bears.of_eq (h : t.Bears g) (hgroups : u.groups = t.groups) (hqueues : u.queues = t.queues) :
    u.Bears g where
  group := hgroups ▸ h.group
  due hq := hqueues ▸ h.due hq

lemma Bears.modifyGroup (h : t.Bears g) (f : Group κ → Group κ) : (t.modifyGroup g f).Bears g where
  group hnone := h.group (by simpa [Tree.modifyGroup, Array.getElem?_modify] using hnone)
  due := h.due

lemma handOver_cases (t : Tree κ σ) (s : ScopeId) (g : GroupId) : ∃ queues deferral journal,
    t.handOver s g = { t with groups := (t.scheduleGroup g).2.groups, queues, deferral, journal } ∧
      (∀ q, queues.due q g = t.queues.due q g +
        if q = .async ∧ (t.groups[g]?).any (!·.scheduled) = true then 1 else 0) ∧
      journal.countP Step.isPass = t.journal.countP Step.isPass := by
  unfold handOver
  split
  · next hfirst =>
    obtain ⟨deferral, h⟩ := queueAsync_eq (t.scheduleGroup g).2 s (.group g)
    refine ⟨_, deferral, _, h, fun q => ?_, rfl⟩
    refine (Queues.due_push t.queues q .async s (.group g)).trans ?_
    have hfirst : (t.groups[g]?).any (!·.scheduled) = true := hfirst
    simp [hfirst, Work.group?]
  · next hfirst =>
    have hfirst : ¬ (t.groups[g]?).any (!·.scheduled) = true := hfirst
    exact ⟨_, _, _, rfl, fun q => by simp [hfirst], rfl⟩

lemma Bears.handOver (h : t.Bears g) (s : ScopeId) : (t.handOver s g).Bears g := by
  obtain ⟨queues, deferral, journal, heq, hdue, -⟩ := t.handOver_cases s g
  rw [heq]
  exact ⟨(h.modifyGroup _).group, fun {q} hq => (hdue q).trans (by simp [hq, h.due hq])⟩

lemma Lacks.bears_formGroup (h : t.Lacks g) (hg : t.groups.size = g) (s : ScopeId)
    (watches : List κ) (listener : κ) : (t.formGroup s watches listener).2.Bears g where
  group := Founded.ne_none ⟨t, s, watches, listener, hg, h, refl_of (Spares g) _⟩
  due {q} _ := by
    obtain ⟨_, _, _, heq, -⟩ := (t.addGroup listener watches.length).2.addMembers_cases s
      t.groups.size 0 watches
    exact (congrArg (·.queues.due q g) heq).trans (h.due q)

end Tree

namespace Engine

variable {E : Engine κ σ} {t u : Tree κ σ} {w : WatcherId} {turn : Turn}

lemma Probes.bears (h : E.Probes g w t turn u) (ht : t.Bears g) : u.Bears g := by
  have hrecorded : ∀ {v x : Tree κ σ} {value : Value} {change : Option Change}, v.Bears g →
      v.record w value = some (change, x) → x.Bears g := by
    intro v x value change hv hrecord
    obtain ⟨_, _, rfl⟩ := Tree.eq_of_record hrecord
    exact hv.of_eq rfl rfl
  cases h with
  | failed h _ hspares => exact (ht.of_spares h.spares).of_spares hspares
  | same h hrecord => exact hrecorded (ht.of_spares h.spares) hrecord
  | @refused _ s _ _ _ v x y _ h hrecord hreact _ hspares =>
    have hx := hrecorded (ht.of_spares h.spares) hrecord
    obtain ⟨group, hfound⟩ := Option.ne_none_iff_exists'.1 hx.group
    rcases reactMember_steps (t := { x with lastDirty := some w }) hfound hreact with
      ⟨_, heap, -, rfl, -⟩ | ⟨_, _, _, -, -, -, hr, -⟩
    · have hy : (Tree.withHeap { x with lastDirty := some w } heap).Bears g := hx.of_eq rfl rfl
      exact hy.of_spares hspares
    · cases hr
  | @handed _ s _ _ v x _ h hrecord hreact =>
    have hx := hrecorded (ht.of_spares h.spares) hrecord
    obtain ⟨group, hfound⟩ := Option.ne_none_iff_exists'.1 hx.group
    rcases reactMember_steps (t := { x with lastDirty := some w }) hfound hreact with
      ⟨_, _, hr, -⟩ | ⟨_, olds, heap, -, -, -, -, rfl⟩
    · cases hr
    · have hwritten : (Tree.withHeap { x with lastDirty := some w }
          (heap.setItems group.oldValues olds)).Bears g := hx.of_eq rfl rfl
      exact hwritten.handOver s

lemma Rings.bears (h : E.Rings g t turn u) (ht : t.Bears g) : u.Bears g := by
  cases h with
  | @intro task group change r v x y _ hnext hwork hfound hchange htell hspares hend hends =>
    cases hchange
    obtain ⟨rest, hv⟩ := Tree.eq_of_dequeue? hnext
    have htaken : v.Bears g :=
      { group := hv ▸ ht.group
        due := fun {q} hq => by
          have hdue := Tree.due_of_dequeue? (g := g) hnext q
          rw [if_neg fun h => hq h.1, Nat.add_zero, ht.due hq] at hdue
          exact hdue.symm }
    have htold := (htaken.modifyGroup ({ · with firstRun := false })).of_spares hspares
    exact (htold.modifyGroup ({ · with scheduled := false })).of_spares hends

end Engine

/-- A stretch of a pass with what there is in it for a group. -/
inductive Host.Turns (H : Host κ σ) (g : GroupId) : Tree κ σ → List Turn → Tree κ σ → Prop
  | none (t : Tree κ σ) : Turns H g t [] t
  | aside {t u v : Tree κ σ} {ts : List Turn} (h : Turns H g t ts u) (hspares : u.Spares g v) :
    Turns H g t (ts ++ [.aside ⟨u.store.heap, v.store.heap⟩]) v
  | probe {t u v : Tree κ σ} {ts : List Turn} {limit : ℕ} {w : WatcherId} {turn : Turn}
    {r : Except Error Findings} (h : Turns H g t ts u) (hphase : u.phase = some .digest)
    (hrun : runOn ((H.engine limit).visitWatcher w) u = some (r, v))
    (hprobes : (H.engine limit).Probes g w u turn v) : Turns H g t (ts ++ [turn]) v

/-- A stretch of a run with what there is in it for a group.  The turns of one pass are together. -/
inductive Host.Muster (H : Host κ σ) (g : GroupId) :
    Tree κ σ → List (List Turn) → Tree κ σ → Prop
  | none (t : Tree κ σ) : Muster H g t [] t
  | aside {t u v : Tree κ σ} {es : List (List Turn)} (h : Muster H g t es u)
    (hspares : u.Spares g v) : Muster H g t (es ++ [[.aside ⟨u.store.heap, v.store.heap⟩]]) v
  | pass {t u v : Tree κ σ} {es : List (List Turn)} {ts : List Turn} (s : ScopeId)
    (h : Muster H g t es u) (hphase : u.phase = some .digest) (hempty : u.queues.async = [])
    (hturns : H.Turns g (u.note (.pass s)) ts v) : Muster H g t (es ++ [ts]) v
  | call {t u v x : Tree κ σ} {es : List (List Turn)} {limit : ℕ} {task : Task κ} {turn : Turn}
    {r : Except Error Unit} (h : Muster H g t es u) (hphase : u.phase = some .digest)
    (hnext : u.dequeue? .async = some (task, x))
    (hrun : runOn ((H.engine limit).contained
      ((H.engine limit).perform task.scope task.work)) x = some (r, v))
    (hrings : (H.engine limit).Rings g u turn v) : Muster H g t (es ++ [[turn]]) v

/-- The group was formed, and this is what there was for it in the rest of the pass. -/
inductive Host.Debut (H : Host κ σ) (g : GroupId) : List Turn → Tree κ σ → Prop
  | intro {t u : Tree κ σ} {ts : List Turn} (s : ScopeId) (watches : List κ) (listener : κ)
    (hg : t.groups.size = g) (hlacks : t.Lacks g)
    (hturns : H.Turns g (t.formGroup s watches listener).2 ts u) : Debut H g ts u

/-- All that there was for a group since it was formed. -/
inductive Host.Career (H : Host κ σ) (g : GroupId) : List (List Turn) → Tree κ σ → Prop
  | intro {t u : Tree κ σ} {ts : List Turn} {es : List (List Turn)} (hdebut : H.Debut g ts t)
    (h : H.Muster g t es u) : Career H g (ts :: es) u

namespace Host

variable {H : Host κ σ} {t u v : Tree κ σ} {ts ts' : List Turn} {es es' : List (List Turn)}

lemma Turns.trans (h : H.Turns g t ts u) (h' : H.Turns g u ts' v) : H.Turns g t (ts ++ ts') v := by
  induction h' with
  | none =>
    rw [List.append_nil]
    exact h
  | aside _ hspares ih =>
    rw [← List.append_assoc]
    exact ih.aside hspares
  | probe _ hphase hrun hprobes ih =>
    rw [← List.append_assoc]
    exact ih.probe hphase hrun hprobes

lemma Turns.bears (h : H.Turns g t ts u) (ht : t.Bears g) : u.Bears g := by
  induction h with
  | none => exact ht
  | aside _ hspares ih => exact ih.of_spares hspares
  | probe _ _ _ hprobes ih => exact hprobes.bears ih

lemma Muster.trans (h : H.Muster g t es u) (h' : H.Muster g u es' v) :
    H.Muster g t (es ++ es') v := by
  induction h' with
  | none =>
    rw [List.append_nil]
    exact h
  | aside _ hspares ih =>
    rw [← List.append_assoc]
    exact ih.aside hspares
  | pass s _ hphase hempty hturns ih =>
    rw [← List.append_assoc]
    exact ih.pass s hphase hempty hturns
  | call _ hphase hnext hrun hrings ih =>
    rw [← List.append_assoc]
    exact ih.call hphase hnext hrun hrings

lemma Muster.bears (h : H.Muster g t es u) (ht : t.Bears g) : u.Bears g := by
  induction h with
  | none => exact ht
  | aside _ hspares ih => exact ih.of_spares hspares
  | pass s _ _ _ hturns ih => exact hturns.bears ⟨ih.group, ih.due⟩
  | call _ _ _ _ hrings ih => exact hrings.bears ih

lemma Debut.bears (h : H.Debut g ts u) : u.Bears g := by
  obtain ⟨s, watches, listener, hg, hlacks, hturns⟩ := h
  exact hturns.bears (hlacks.bears_formGroup hg s watches listener)

lemma Debut.trans (h : H.Debut g ts u) (h' : H.Turns g u ts' v) : H.Debut g (ts ++ ts') v := by
  obtain ⟨s, watches, listener, hg, hlacks, hturns⟩ := h
  exact .intro s watches listener hg hlacks (hturns.trans h')

lemma Career.bears (h : H.Career g es u) : u.Bears g := by
  obtain ⟨hdebut, hmuster⟩ := h
  exact hmuster.bears hdebut.bears

lemma Career.trans (h : H.Career g es u) (h' : H.Muster g u es' v) :
    H.Career g (es ++ es') v := by
  obtain ⟨hdebut, hmuster⟩ := h
  exact .intro hdebut (hmuster.trans h')

lemma debut_of_founded (h : t.Founded g) : ∃ ts, H.Debut g ts t := by
  obtain ⟨v, s, watches, listener, hg, hlacks, hspares⟩ := h
  exact ⟨_, .intro s watches listener hg hlacks ((Turns.none _).aside hspares)⟩

/-! ## Runs -/

/-- What there is for the group on the way from one tree to another within a pass. -/
structure Attends (H : Host κ σ) (g : GroupId) (t u : Tree κ σ) : Prop where
  turns : t.Bears g → ∃ ts, H.Turns g t ts u
  lacks : t.Lacks g → u.Lacks g ∨ ∃ ts, H.Debut g ts u

/-- What there is for the group on the way from one tree to another. -/
structure Follows (H : Host κ σ) (g : GroupId) (t u : Tree κ σ) : Prop where
  muster : t.Bears g → ∃ es, H.Muster g t es u
  lacks : t.Lacks g → u.Lacks g ∨ ∃ es, H.Career g es u

instance : IsPreorder (Tree κ σ) (H.Attends g) where
  refl t := ⟨fun _ => ⟨[], .none t⟩, .inl⟩
  trans t u v h h' :=
    { turns := fun ht => by
        obtain ⟨ts, hts⟩ := h.turns ht
        obtain ⟨ts', hts'⟩ := h'.turns (hts.bears ht)
        exact ⟨_, hts.trans hts'⟩
      lacks := fun ht => by
        rcases h.lacks ht with hu | ⟨ts, hts⟩
        · exact h'.lacks hu
        · obtain ⟨ts', hts'⟩ := h'.turns hts.bears
          exact .inr ⟨_, hts.trans hts'⟩ }

instance : IsPreorder (Tree κ σ) (H.Follows g) where
  refl t := ⟨fun _ => ⟨[], .none t⟩, .inl⟩
  trans t u v h h' :=
    { muster := fun ht => by
        obtain ⟨es, hes⟩ := h.muster ht
        obtain ⟨es', hes'⟩ := h'.muster (hes.bears ht)
        exact ⟨_, hes.trans hes'⟩
      lacks := fun ht => by
        rcases h.lacks ht with hu | ⟨es, hes⟩
        · exact h'.lacks hu
        · obtain ⟨es', hes'⟩ := h'.muster hes.bears
          exact .inr ⟨_, hes.trans hes'⟩ }

lemma attends_of_befalls (h : Befalls g t u) : H.Attends g t u where
  turns ht := ⟨_, (Turns.none t).aside (h.spares ht.group)⟩
  lacks ht := (h.founded ht).imp_right debut_of_founded

lemma follows_of_befalls (h : Befalls g t u) : H.Follows g t u where
  muster ht := ⟨_, (Muster.none t).aside (h.spares ht.group)⟩
  lacks ht := (h.founded ht).imp_right fun hu =>
    let ⟨_, hts⟩ := debut_of_founded hu
    ⟨_, .intro hts (.none u)⟩

lemma ways_follows (H : Host κ σ) (g : GroupId) :
    (Concern.ofGroup κ σ g).Ways H (H.Follows g) (H.Attends g) where
  aside h := follows_of_befalls h.keeps
  amid h := attends_of_befalls h.keeps
  visit {limit t u w watcher r} hphase hw hmember h :=
    { turns := fun ht => by
        rcases probes_of_visit hphase ht.group hw hmember h with rfl | ⟨turn, hprobes⟩
        · exact ⟨[], .none u⟩
        · exact ⟨_, (Turns.none t).probe hphase h hprobes⟩
      lacks := fun ht => by
        refine absurd ?_ (ht.member w)
        rw [Tree.groupOf?, hw]
        exact hmember }
  pass {t u} s hphase hempty h :=
    { muster := fun ht => by
        obtain ⟨ts, hts⟩ := h.turns ⟨ht.group, ht.due⟩
        exact ⟨_, (Muster.none t).pass s hphase hempty hts⟩
      lacks := fun ht => (h.lacks ⟨ht.group, ht.member, ht.due⟩).imp_right
        fun ⟨_, hts⟩ => ⟨_, .intro hts (.none u)⟩ }
  task {limit t u v q task g' r} hnext hwork hg hq h := by
    obtain rfl : g' = g := hg
    have hdue := Tree.due_of_dequeue? (g := g') hnext q
    rw [hwork, if_pos ⟨rfl, rfl⟩] at hdue
    refine ⟨fun ht => ?_, fun ht => by have := ht.due q; omega⟩
    obtain rfl : q = .async := by
      by_contra hne
      have := ht.due hne
      omega
    have hphase := hq rfl
    obtain ⟨turn, hrings⟩ := rings_of_task hphase ht.group hnext hwork h
    exact ⟨_, (Muster.none t).call hphase hnext h hrings⟩

/-- A run in which a group is formed is a career of the group from then on. -/
theorem career_of_run {limit : ℕ} {p : Program κ σ α} {r : Except Error α} {store : Store σ}
    {compiler : Compiler} {config : Config} {timed : Bool}
    (h : H.run limit p (.plant store compiler config timed) = some (r, u)) :
    u.Lacks g ∨ ∃ es, H.Career g es u := by
  refine ((H.ways_follows g).way_of_run (Concern.lawful_ofGroup κ σ g) h).lacks ?_
  exact ⟨Array.getElem?_empty, fun _ => nofun, fun q => by cases q <;> rfl⟩

/-- A run in which there is the group already is a muster. -/
theorem muster_of_run {limit : ℕ} {p : Program κ σ α} {r : Except Error α}
    (h : H.run limit p t = some (r, u)) (ht : t.Bears g) : ∃ es, H.Muster g t es u :=
  ((H.ways_follows g).way_of_run (Concern.lawful_ofGroup κ σ g) h).muster ht

end Host

end DataBinding
