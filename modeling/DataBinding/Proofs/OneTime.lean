import DataBinding.Proofs.Errands

/-!
# When one-time watches end

A one-time watch ends when its value has settled, and what counts is the value that it reported
last: one that was settled and then reverted does not end it, be it in the same digest or in a later
one.  A digest that ends well empties the queue for its end, and by then every watch is gone whose
value has settled (`Host.oneTime_gone_iff_settled`).

This is so as long as nobody takes the watch back or modifies in place what it reports.
-/

namespace DataBinding

open Compute (runOn)
open Instant (Beat Move Trail Orderly reports Unmodified)

variable {κ σ : Type}

namespace Engine

variable {E : Engine κ σ} {t u : Tree κ σ} {s : ScopeId}

/-- A digest that ends well was accepted, and leaves no task for its end behind. -/
lemma idle_of_digest_ok (h : runOn (E.digest s) t = some (.ok (), u)) :
    t.phase = none ∧ u.queues.postDigest = [] := by
  cases hphase : t.phase with
  | some active =>
    rw [runOn_digest_of_busy hphase] at h
    cases h
  | none =>
    obtain ⟨settled, v, v', -, -, hend⟩ := runOn_digest_cases hphase h
    rcases hend with ⟨-, -, hpost⟩ | ⟨-, hr, -⟩
    · exact ⟨rfl, tasks_of_drainWithin hpost⟩
    · cases hr

end Engine

/-- A run in which nobody takes a one-time watch back leaves a trail, and a watch that is gone is
listed nowhere.  Wherever a trail from a planted tree has come to, and if nobody modifies in place
what the watch reports:

A digest that ends well leaves the watch gone just if the value that it reported last has settled by
then.  A watch that is gone at any instant has a settled value as the last one that it reported, so
a value that reverted does not end it.  Once it is gone it reports nothing any more.

What the watch reports are calls of its listener, and these are all: without a report it goes by
what was reported and recorded before. -/
theorem Host.oneTime_gone_iff_settled (H : Host κ σ) (w : WatcherId) (store : Store σ)
    (compiler : Compiler) (config : Config) (timed : Bool) :
    (∀ {α : Type} (limit : ℕ) (p : Program κ σ α) (r : Except Error α) (u : Tree κ σ),
      (H.sparing w).run limit (p.sparing w) (.plant store compiler config timed) = some (r, u) →
      H.run limit p (.plant store compiler config timed) = some (r, u) ∧
        (∃ bs, Trail w ⟨[], .plant store compiler config timed⟩ bs ⟨[], u⟩) ∧
        (u.isActive w = false → ∀ s, w ∉ (u.scope s).watchers)) ∧
    ∀ (bs : List (Beat κ)) (m : Instant κ σ),
      Trail w ⟨[], .plant store compiler config timed⟩ bs m →
      (∀ (limit : ℕ) (s : ScopeId) (u : Tree κ σ),
        runOn (((H.sparing w).engine limit).digest s) m.tree = some (.ok (), u) →
        (∃ bs', Trail w m bs' ⟨m.holds, u⟩) ∧
        ∀ bs', Trail w m bs' ⟨m.holds, u⟩ → Unmodified (bs ++ bs') →
          ∀ τ ∈ (reports (bs ++ bs')).getLast?,
            (u.isActive w = false ↔ τ.settledIn u.store.heap = true)) ∧
      (Unmodified bs → ∀ τ ∈ (reports bs).getLast?, m.tree.isActive w = false →
        τ.settledIn m.tree.store.heap = true) ∧
      (∀ τ ∈ reports bs, ∃ call, τ.call? = some call ∧ call ∈ m.tree.calls) ∧
      ∀ x, m.tree.oneTime? w = some x → ∀ bs' m', Trail w m bs' m' →
        (x.active = false → reports bs' = []) ∧
        (reports bs' = [] → ∃ active, m'.tree.oneTime? w = some { x with active } ∧
          (active = true → x.active = true)) := by
  refine ⟨fun limit p r u h => ?_, fun bs m hbs => ?_⟩
  · have hrun := run_of_sparing h
    have hsound : u.Sound := H.sound_of_run hrun (Tree.sound_plant ..)
    refine ⟨hrun, trail_of_run h [], fun hgone s hw => ?_⟩
    exact Bool.false_ne_true (hgone.symm.trans (hsound.isActive hw))
  have hplanted : Orderly ([] : List (Hold κ))
      (Tree.plant (κ := κ) store compiler config timed).phase := .idle
  refine ⟨fun limit s u hdigest => ?_, fun hkept τ hτ => (hbs.awaits hplanted hkept τ hτ).gone,
    hbs.mem_calls, fun x hx bs' m' hbs' => ⟨hbs'.silent hx, hbs'.quiet hx⟩⟩
  have herrand := (H.errand_sparing (α := Unit) w limit).1.digest s hdigest
  refine ⟨herrand.trodden m.holds, fun bs' hbs' hkept τ hτ => ?_⟩
  obtain ⟨hidle, hqueue⟩ := Engine.idle_of_digest_ok hdigest
  -- nothing is held on to where a digest is accepted
  have hholds : m.holds = [] := (hidle ▸ hbs.orderly hplanted : Orderly m.holds none).of_idle
  exact (hholds ▸ hbs.trans hbs').gone_iff hplanted hkept hqueue hτ

/-! ## A host that waits for a value -/

/-- The only procedure of a host that is told of a value. -/
inductive Waiter
  | told

/-- A host whose listener does nothing. -/
def waiter : Host Waiter Unit where
  library := ⟨fun _ _ _ => .endless, fun _ _ => .endless⟩
  report := fun _ host => host
  procedure | .told, _ => return .undefined

/-- Watches a property of the root until it has a value, and gives it one. -/
def waiterSetup : Program Waiter Unit Unit := do
  let data ← Program.look fun t => t.data rootId
  discard <| Program.request (.watchExpression rootId "::a" .told false)
  Program.compute (Store.changing (·.setOwn data "a" (.bool true)))

/-- The tree that the host begins with. -/
def waiterPlant : Tree Waiter Unit := .plant ⟨.empty, ()⟩ ⟨.empty, .empty⟩ {} false

/-- The watch: nothing is recorded yet, or the value that the property is given. -/
def waiterWatcher (last : Option Frozen) : Watcher Waiter where
  scope := rootId
  kind := .oneTime ⟨"a", [.place (.name "a")], [], true⟩ .told .undefined
  byValue := false
  last := last

/-- The tree with the watch, when the property has its value. -/
def waiterTree : Tree Waiter Unit :=
  { waiterPlant with
    store := ⟨⟨#[], #[⟨⟨[("a", .bool true)]⟩, none⟩], #[]⟩, ()⟩
    compiler := ⟨.empty, ⟨[("::a", ⟨"a", [.place (.name "a")], [], true⟩)]⟩⟩
    scopes := #[{ data := 0, parent := none, isolated := false, watchers := [0] }]
    watchers := #[waiterWatcher none] }

/-- What the watch tells its listener in the first pass. -/
def waiterTelling : Telling Waiter where
  id := 0
  watcher := waiterWatcher (some (.leaf (.bool true)))
  change := ⟨.bool true, .bool true⟩
  seen := waiterTree.store.heap
  told := waiterTree.store.heap

lemma waiter_run :
    (waiter.sparing 0).run 9 (waiterSetup.sparing 0) waiterPlant = some (.ok (), waiterTree) := by
  cbv

/-- The watch reports the value in the first pass of a digest, and is gone at its end. -/
lemma waiter_digest : ∃ u bs,
    runOn (((waiter.sparing 0).engine 9).digest rootId) waiterTree = some (.ok (), u) ∧
      Trail 0 ⟨[], waiterTree⟩ bs ⟨[], u⟩ ∧ reports bs = [waiterTelling] ∧
      Unmodified (⟨none, waiterTree.store.heap⟩ :: bs) ∧
      ∃ x, u.oneTime? 0 = some x ∧ x.active = false := by
  let checked : Tree Waiter Unit := (waiterTree.begun.note (.pass rootId)).note (.checked 0)
  let recorded : Tree Waiter Unit :=
    checked.modifyWatcher 0 fun _ => waiterWatcher (some (.leaf (.bool true)))
  let told : Tree Waiter Unit := waiterTelling.finished (waiterTelling.begun recorded)
  let clean : Tree Waiter Unit := (told.note (.pass rootId)).note (.checked 0)
  let started : Tree Waiter Unit :=
    { clean.leave .digest with queues := { next := 1 } }.note (.started .postDigest 0)
  have hnext : (clean.leave .digest).dequeue? .postDigest =
      some (⟨0, rootId, .settle 0⟩, started) := by cbv
  have hrecord : waiterTelling.OfRecord checked recorded := ⟨⟨.bool true, by cbv⟩, rfl, rfl, rfl⟩
  have hpass : Tree.Bypasses 0 (waiterTree.entering .digest) checked :=
    .of_eq rfl rfl rfl rfl
  have hclean : Tree.Bypasses 0 told clean :=
    .of_eq rfl rfl rfl rfl
  refine ⟨started.settle 0, _, by cbv,
    ((((((Move.enter rfl .digest).trail.trans (Move.bypass hpass).trail).trans
      (Move.tell rfl rfl hrecord rfl).trail).trans Move.told.trail).trans
      (Move.bypass hclean).trail).trans Move.leave.trail).trans (Move.settle hnext rfl).trail,
    rfl, ?_, _, rfl, rfl⟩
  simp [Unmodified, Heap.SameAt, waiterTelling]

/-- The watch has reported a value that is settled, so it is gone at the end of the digest and
reports nothing any more. -/
theorem waiter_gone : ∃ u bs,
    waiter.run 9 waiterSetup waiterPlant = some (.ok (), waiterTree) ∧
      (∃ bs', Trail 0 ⟨[], waiterPlant⟩ bs' ⟨[], waiterTree⟩) ∧
      runOn (((waiter.sparing 0).engine 9).digest rootId) waiterTree = some (.ok (), u) ∧
      Trail 0 ⟨[], waiterPlant⟩ bs ⟨[], u⟩ ∧ Unmodified bs ∧
      (reports bs).getLast? = some waiterTelling ∧ u.isActive 0 = false ∧
      waiterTelling.settledIn u.store.heap = true ∧
      (∃ call, waiterTelling.call? = some call ∧ call ∈ u.calls) ∧
      ∃ x, u.oneTime? 0 = some x ∧ ∀ bs' m', Trail 0 ⟨[], u⟩ bs' m' → reports bs' = [] := by
  obtain ⟨hruns, htrails⟩ :=
    waiter.oneTime_gone_iff_settled 0 ⟨.empty, ()⟩ ⟨.empty, .empty⟩ {} false
  obtain ⟨hrun, hbegin, -⟩ := hruns 9 waiterSetup _ _ waiter_run
  obtain ⟨u, bs, hdigest, htrail, hreports, hkept, x, hx, hoff⟩ := waiter_digest
  have hgone : u.isActive 0 = false := (Tree.isActive_of_oneTime? hx).trans hoff
  have hplanted : Tree.Bypasses 0 waiterPlant waiterTree :=
    ⟨rfl, fun h => (by cases h), fun h => (by cases h), List.suffix_rfl⟩
  have hbegun : Trail 0 ⟨[], waiterPlant⟩ [⟨none, waiterTree.store.heap⟩] ⟨[], waiterTree⟩ :=
    (Move.bypass hplanted).trail
  have hlast : (reports ([⟨none, waiterTree.store.heap⟩] ++ bs)).getLast? =
      some waiterTelling := by
    rw [Instant.reports_append, hreports]
    rfl
  obtain ⟨hdigests, -⟩ := htrails _ _ hbegun
  have hsettled := ((hdigests 9 rootId u hdigest).2 bs htrail hkept _ hlast).1 hgone
  obtain ⟨-, -, hcalls, hafter⟩ := htrails _ _ (hbegun.trans htrail)
  have hcall := hcalls waiterTelling (List.mem_of_getLast? hlast)
  exact ⟨u, _, hrun, hbegin, hdigest, hbegun.trans htrail, hkept, hlast, hgone, hsettled, hcall,
    x, hx, fun bs' m' h => (hafter x hx bs' m' h).1 hoff⟩

end DataBinding
