import DataBinding.Proofs.Equalities
import DataBinding.Proofs.Histories
import DataBinding.Proofs.Termination

/-!
# Watchers that compare contents

A watcher that compares contents compares what it sees with its record, and records a copy of what
differs.  Both go down through the containers of the value, and neither looks for a container that
it has met before.

The comparison comes out with every value all the same (`Tree.TakesIn.compares`).  It goes down both
sides at once, and the record is a copy of something that has an end, whatever has become of the
heap since (`Scene.Story.keepsCopies`).  The copy does not: a value from which one comes to a
container that contains itself differs from every record, and there is no copy of it.  So a check
ends with a change or without one if the value that is seen does not contain itself, and has no end
if it does (`Host.checks_contents`).
-/

namespace DataBinding

open Compute (runOn)
open Scene (Next Story)

variable {κ σ : Type}

/-! ## Records -/

namespace Frozen

/-- The frozen value is what some value held at some moment. -/
def IsCopy (f : Frozen) : Prop := ∃ (h : Heap) (v : Value), h.freeze? v = some f

end Frozen

namespace Heap

variable {h k : Heap} {v w : Value} {f : Frozen} {n : ℕ}

lemma exists_of_agreesItems {items : List Frozen} {l : List Value}
    (hagrees : h.agreesItems items l = true) (hv : v ∈ l) : ∃ f ∈ items, h.agrees f v = true := by
  induction l generalizing items with
  | nil => cases hv
  | cons w l ih =>
    cases items with
    | nil => simp [agreesItems] at hagrees
    | cons f items =>
      rw [agreesItems, Bool.and_eq_true] at hagrees
      rcases List.mem_cons.1 hv with rfl | hv
      · exact ⟨f, .head _, hagrees.1⟩
      · obtain ⟨g, hg, hv⟩ := ih hagrees.2 hv
        exact ⟨g, .tail _ hg, hv⟩

lemma agreesEntries_iff {entries : List (String × Frozen)} {r : Record Value} :
    h.agreesEntries entries r = true ↔
      ∀ x ∈ entries, ∃ v, r.get? x.1 = some v ∧ h.agrees x.2 v = true := by
  induction entries with
  | nil => simp [agreesEntries]
  | cons x entries ih =>
    obtain ⟨key, f⟩ := x
    rw [agreesEntries, Bool.and_eq_true, ih, List.forall_mem_cons]
    refine and_congr_left fun _ => ?_
    cases r.get? key <;> simp

/-- An object that agrees with a frozen one has its names and no others, each once, so all that it
holds is compared. -/
lemma exists_of_agrees_object {entries : List (String × Frozen)} {p : ℕ}
    (hnames : (entries.map Prod.fst).Nodup)
    (hagrees : h.agrees (.object entries) (.object p) = true) (hv : h.Holds (.object p) v) :
    ∃ x ∈ entries, h.agrees x.2 v = true := by
  rw [agrees, Bool.and_eq_true, beq_iff_eq, agreesEntries_iff] at hagrees
  obtain ⟨hsize, hagrees⟩ := hagrees
  have hperm : (entries.map Prod.fst).Perm (h.record p).keys := by
    refine perm_keys_of_size hnames (by simpa using hsize.symm) ?_
    refine List.forall_mem_map.2 fun x hx => ?_
    obtain ⟨w, hw, -⟩ := hagrees x hx
    rw [Record.has, hw, Option.isSome_some]
  obtain ⟨y, hy, rfl⟩ := List.mem_map.1 hv
  obtain ⟨x, hx, hname⟩ := List.mem_map.1 (hperm.mem_iff.2 (List.mem_map_of_mem hy))
  obtain ⟨w, hw, hagrees⟩ := hagrees x hx
  rw [hname, get?_of_mem_entries (hperm.nodup_iff.1 hnames) hy] at hw
  cases hw
  exact ⟨x, hx, hagrees⟩

/-- What agrees with a frozen value is no deeper. -/
lemma not_nested_of_agrees (hf : h.freezeWithin n v = some f) (hnamed : f.Named)
    (hagrees : k.agrees f w = true) : ¬ k.Nested n w := by
  induction n generalizing v f w with
  | zero =>
    intro hnested
    cases v with
    | array | object => cases hf
    | _ =>
      cases hf
      rw [agrees] at hagrees
      cases hnested <;> cases hagrees
  | succ n ih =>
    rw [Nested.succ_iff]
    rintro ⟨x, hheld, hnested⟩
    cases v with
    | array a =>
      obtain ⟨items, hitems, hend⟩ := Option.bind_eq_some_iff.1 hf
      cases hend
      cases hnamed with
      | array hnamed =>
        cases w with
        | array b =>
          rw [agrees] at hagrees
          obtain ⟨g, hg, hx⟩ := exists_of_agreesItems hagrees hheld
          obtain ⟨v, -, hv⟩ := exists_of_mem_of_mapM hitems hg
          exact ih hv (hnamed g hg) hx hnested
        | _ => simp [agrees] at hagrees
    | object o =>
      obtain ⟨entries, hentries, hend⟩ := Option.bind_eq_some_iff.1 hf
      cases hend
      cases hnamed with
      | object hnames hnamed =>
        cases w with
        | object p =>
          obtain ⟨g, hg, hx⟩ := exists_of_agrees_object hnames hagrees hheld
          obtain ⟨⟨key, v⟩, -, hv⟩ := exists_of_mem_of_mapM hentries hg
          obtain ⟨f, hf, hend⟩ := Option.bind_eq_some_iff.1 hv
          cases hend
          exact ih hf (hnamed _ hg) hx hnested
        | _ => simp [agrees] at hagrees
    | _ =>
      cases hf
      rw [agrees] at hagrees
      cases w with
      | array | object => cases hagrees
      | _ => cases hheld

/-- A value that contains itself differs from every record. -/
lemma agrees_eq_false_of_cyclic (hf : f.IsCopy) (hnamed : f.Named) (hw : k.Cyclic w) :
    k.agrees f w = false := by
  obtain ⟨h, v, hfreeze⟩ := hf
  by_contra hagrees
  exact not_nested_of_agrees hfreeze hnamed (Bool.eq_true_of_not_eq_false hagrees) (hw.nested _)

/-- What is thawed of a record does not contain itself. -/
lemma not_cyclic_thaw (hf : f.IsCopy) (k : Heap) : ¬ (f.thaw k).2.Cyclic (f.thaw k).1 := by
  obtain ⟨h, v, hfreeze⟩ := hf
  rw [← freeze?_eq_none_iff, freeze?_thaw hfreeze k]
  exact Option.some_ne_none f

/-- The comparison of a value with what is thawed of a record comes out, whatever the value is. -/
lemma exists_deepEq?_thaw (hf : f.IsCopy) (v : Value) :
    ∃ b, (f.thaw k).2.deepEq? v (f.thaw k).1 = some b :=
  Option.ne_none_iff_exists'.1 fun hnone => not_cyclic_thaw hf k (cyclic_of_deepEq? hnone).2

/-- To compare a value that is unchanged with what is thawed of a record is to compare it with the
record. -/
lemma deepEq?_thaw (hf : f.IsCopy) (hkeys : ∀ o, ((f.thaw k).2.record o).keys.Nodup)
    (hv : k.Unchanged (f.thaw k).2 v) :
    (f.thaw k).2.deepEq? v (f.thaw k).1 = some (k.agrees f v) := by
  rw [deepEq?_comm hkeys (not_cyclic_thaw hf k)]
  obtain ⟨h, u, hfreeze⟩ := hf
  rw [deepEq?_of_freeze? hkeys (freeze?_thaw hfreeze k), agrees_of_unchanged f hv]

lemma deepCopy?_eq_none_iff : h.deepCopy? v = none ↔ h.Cyclic v := by
  rw [deepCopy?, Option.map_eq_none_iff, freeze?_eq_none_iff]

end Heap

/-! ## What watchers record -/

/-- What the watchers that compare contents have recorded are copies. -/
def Tree.KeepsCopies (t : Tree κ σ) : Prop :=
  ∀ w f, t.lastRecord w = some (true, f) → f.IsCopy

namespace Scene

variable {m m' : Scene κ σ} {ds : List (Deed κ)}

/-- A record is made of what is seen, and stays as it is. -/
lemma Next.keepsCopies (h : Next m ds m') (hm : m.tree.KeepsCopies) : m'.tree.KeepsCopies := by
  intro w f hf
  rcases h.tellings_cases w with ⟨-, hkept⟩ | ⟨τ, x, -, -, hx, hafter⟩
  · exact hm w f (hkept.symm.trans hf)
  · obtain rfl := Option.some.inj (hafter.symm.trans hf)
    obtain ⟨g, hg, hrecord⟩ := Option.map_eq_some_iff.1 hx
    obtain ⟨hbyValue, rfl⟩ := Prod.mk.inj hrecord
    rw [Heap.recorded?, if_pos hbyValue] at hg
    exact ⟨τ.seen, τ.change.new, hg⟩

lemma Story.keepsCopies (h : Story m ds m') (hm : m.tree.KeepsCopies) : m'.tree.KeepsCopies := by
  induction h with
  | none => exact hm
  | more _ hnext ih => exact hnext.keepsCopies ih

end Scene

/-! ## Checks -/

/-- What comes of taking in a value, where the watcher compares contents. -/
structure Tree.TakesIn (t : Tree κ σ) (w : WatcherId) (new : Value) : Prop where
  /-- The comparison with the record comes out. -/
  compares : ∀ f, t.lastRecord w = some (true, f) →
    ∃ b, (f.thaw t.store.heap).2.deepEq? new (f.thaw t.store.heap).1 = some b
  /-- It is by this comparison that a change is noticed. -/
  notices : ∀ f, t.lastRecord w = some (true, f) →
    (∀ o, ((f.thaw t.store.heap).2.record o).keys.Nodup) →
    t.store.heap.Unchanged (f.thaw t.store.heap).2 new →
    (f.thaw t.store.heap).2.deepEq? new (f.thaw t.store.heap).1 = some (t.store.heap.agrees f new)
  /-- There is a copy just of what does not contain itself. -/
  copies : t.store.heap.deepCopy? new = none ↔ t.store.heap.Cyclic new
  returns : ¬ t.store.heap.Cyclic new → ∃ change u, t.record w new = some (change, u)
  endless : t.store.heap.Cyclic new →
    (∀ f, t.lastRecord w = some (true, f) → f.Named) → t.record w new = none

lemma Tree.takesIn {t : Tree κ σ} {w : WatcherId} {watcher : Watcher κ} (ht : t.KeepsCopies)
    (hw : t.watcher? w = some watcher) (hbyValue : watcher.byValue = true) (new : Value) :
    t.TakesIn w new where
  compares f hf := Heap.exists_deepEq?_thaw (ht w f hf) new
  notices f hf := Heap.deepEq?_thaw (ht w f hf)
  copies := Heap.deepCopy?_eq_none_iff
  returns hnew := by
    have hsome : t.record w new ≠ none := fun hnone => by
      obtain ⟨_, -, -, -, hcyclic⟩ := record_eq_none_iff.1 hnone
      exact hnew hcyclic
    obtain ⟨⟨change, u⟩, hrecord⟩ := Option.ne_none_iff_exists'.1 hsome
    exact ⟨change, u, hrecord⟩
  endless hnew hnamed := by
    refine record_eq_none_iff.2 ⟨watcher, hw, ?_, hbyValue, hnew⟩
    cases hlast : watcher.last with
    | none => rfl
    | some f =>
      have hrecord : t.lastRecord w = some (true, f) := by
        rw [lastRecord, hw, Option.bind_some, hlast, hbyValue, Option.map_some]
      exact Heap.agrees_eq_false_of_cyclic (ht w f hrecord) (hnamed f hrecord) hnew

namespace Host

variable {H : Host κ σ} {t u : Tree κ σ} {w : WatcherId} {new : Value}

/-- The check of a watcher comes to a value, which it is to take in. -/
def Sees (H : Host κ σ) (t : Tree κ σ) (w : WatcherId) (new : Value) (u : Tree κ σ) : Prop :=
  ∃ watcher, t.watcher? w = some watcher ∧
    H.Ends (·.observe watcher.scope w watcher.kind) (t.note (.checked w)) (.ok new) u

/-- How the checks of a watcher end that compares contents, once it has seen a value. -/
structure ChecksContents (H : Host κ σ) (t : Tree κ σ) (w : WatcherId) : Prop where
  takesIn : ∀ new u, H.Sees t w new u → u.TakesIn w new
  returns : ∀ new u, H.Sees t w new u → ¬ u.store.heap.Cyclic new →
    ∃ change v, H.Ends (·.check w) t (.ok change) v
  endless : ∀ new u, H.Sees t w new u → u.store.heap.Cyclic new →
    (∀ f, u.lastRecord w = some (true, f) → f.Named) → H.Endless (·.check w) t

/-- While a watcher looks at a value, its procedure is called at most. -/
lemma Sees.episodeIn (h : H.Sees t w new u) :
    Tree.EpisodeIn (.checking w) (t.note (.checked w)) u := by
  obtain ⟨watcher, hw, limit, hrun⟩ := h
  have hcall := H.leads_invoke Tree.proceeds_episode.toPermits
    fun _ hcall => Engine.heeds_episode hcall
  exact Engine.episodeIn_observe (hcall limit) hw hrun

/-- A check that comes to a value returns if the value is taken in. -/
lemma Sees.returns (h : H.Sees t w new u)
    (hrecord : ∃ change v, u.record w new = some (change, v)) :
    ∃ change v, H.Ends (·.check w) t (.ok change) v := by
  obtain ⟨watcher, hw, hobserve⟩ := h
  have hunique : ∀ {r v},
      H.Ends (·.observe watcher.scope w watcher.kind) (t.note (.checked w)) r v →
        .ok new = r ∧ u = v := Ends.unique (rising_observe watcher.scope w watcher.kind) hobserve
  rcases ends_or_endless (H := H) (·.check w) t with ⟨r, v, limit, hcheck⟩ | hendless
  · cases r with
    | ok change => exact ⟨change, v, limit, hcheck⟩
    | error e =>
      rcases Engine.check_cases hcheck with ⟨-, he, -⟩ |
        ⟨_, hw', ⟨e, -, hfails⟩ | ⟨_, _, _, he, -, -⟩⟩
      · cases he
      · cases hw.symm.trans hw'
        cases (hunique ⟨limit, hfails⟩).1
      · cases he
  · obtain ⟨_, hw', hobserves | ⟨new', v, hobserve', hnone⟩⟩ := endless_check_iff.1 hendless
    · cases hw.symm.trans hw'
      exact absurd hobserve hobserves.not_ends
    · cases hw.symm.trans hw'
      obtain ⟨hnew, rfl⟩ := hunique hobserve'
      cases hnew
      obtain ⟨change, z, hsome⟩ := hrecord
      cases hsome.symm.trans hnone

/-- A check that comes to a value has no end if there is no record of it. -/
lemma Sees.endless (h : H.Sees t w new u) (hrecord : u.record w new = none) :
    H.Endless (·.check w) t := by
  obtain ⟨watcher, hw, hobserve⟩ := h
  exact endless_check_iff.2 ⟨watcher, hw, .inr ⟨new, u, hobserve, hrecord⟩⟩

variable (H) in
/-- A watcher that compares contents comes to the end of its check if the value it sees does not
contain itself, with a change or without one.  The comparison with its record comes out for every
value, but there is no copy of a value that contains itself, and the check has no end. -/
theorem checks_contents {store : Store σ} {compiler : Compiler} {config : Config} {timed : Bool}
    {ds : List (Deed κ)} {m : Scene κ σ}
    (hstory : Story ⟨[], .plant store compiler config timed⟩ ds m) {watcher : Watcher κ}
    (hw : m.tree.watcher? w = some watcher) (hbyValue : watcher.byValue = true) :
    H.ChecksContents m.tree w := by
  have hplanted : (Tree.plant store compiler config timed : Tree κ σ).KeepsCopies := by
    intro w f hf
    cases hf
  have hcopies : (m.tree.note (.checked w)).KeepsCopies := hstory.keepsCopies hplanted
  have htakesIn : ∀ new u, H.Sees m.tree w new u → u.TakesIn w new := by
    intro new u hsees
    obtain ⟨ds', hlooks⟩ := hsees.episodeIn []
    obtain ⟨watcher', hw', hsucceeds⟩ := hlooks.grows.later.watcher w watcher hw
    exact Tree.takesIn (hlooks.keepsCopies hcopies) hw' (hsucceeds.byValue.trans hbyValue) new
  exact
    { takesIn := htakesIn
      returns := fun new u hsees hnew => hsees.returns ((htakesIn new u hsees).returns hnew)
      endless := fun new u hsees hnew hnamed =>
        hsees.endless ((htakesIn new u hsees).endless hnew hnamed) }

end Host

/-! ## A watcher that looks at a knot -/

/-- The procedures of a host that watches a value and does nothing about its changes. -/
inductive Gazer where
  | look | ignore

/-- The host that watches this value. -/
def gazer (v : Value) : Host Gazer Unit where
  library := ⟨fun _ _ _ => .endless, fun _ _ => .endless⟩
  report := fun _ host => host
  procedure
    | .look, _ => return v
    | .ignore, _ => return .undefined

/-- An array that is its own element, and one that holds a number. -/
def knot : Heap where
  arrays := #[#[.array 0], #[.ofNat 7]]
  objects := #[]
  closures := #[]

section Knot

variable {h : Heap} (hknot : h.arrays = knot.arrays)

include hknot

lemma cyclic_of_knot : h.Cyclic (.array 0) := by
  have hholds : h.Holds (.array 0) (.array 0) := by
    simp [Heap.Holds, Heap.held, Heap.items, hknot, knot]
  exact ⟨.array 0, .refl, .single hholds⟩

lemma not_cyclic_of_knot : ¬ h.Cyclic (.array 1) := by
  have hfreeze : h.freezeWithin 1 (.array 1) = some (.array [.leaf (.ofNat 7)]) := by
    simp [Heap.freezeWithin, Heap.items, hknot, knot, Value.ofNat]
  intro hcyclic
  cases hfreeze.symm.trans (Heap.freezeWithin_eq_none_iff.2 (hcyclic.nested 1))

end Knot

/-- Watches the value by its contents. -/
def gazerSetup : Program Gazer Unit Unit := do
  discard <| Program.request (.watch rootId .look .ignore true)

/-- The tree of that host before a check, and what the check comes to. -/
lemma gazer_run (v : Value) : ∃ t u watcher, (gazer v).run 9 gazerSetup
      (.plant ⟨knot, ()⟩ ⟨.empty, .empty⟩ {} false) = some (.ok (), t) ∧
    t.watcher? 0 = some watcher ∧ watcher.byValue = true ∧ watcher.last = none ∧
    (gazer v).Sees t 0 v u ∧ u.watcher? 0 = some watcher ∧ u.store.heap.arrays = knot.arrays :=
  ⟨_, _, _, rfl, rfl, rfl, rfl, ⟨_, rfl, 9, rfl⟩, rfl, rfl⟩

/-- The array that holds a number is checked to the end. -/
theorem gazer_checks_contents : ∃ t u, (gazer (.array 1)).run 9 gazerSetup
      (.plant ⟨knot, ()⟩ ⟨.empty, .empty⟩ {} false) = some (.ok (), t) ∧
    (gazer (.array 1)).ChecksContents t 0 ∧ (gazer (.array 1)).Sees t 0 (.array 1) u ∧
    ∃ change v, (gazer (.array 1)).Ends (·.check 0) t (.ok change) v := by
  obtain ⟨t, u, watcher, hrun, hw, hbyValue, -, hsees, -, hknot⟩ := gazer_run (.array 1)
  obtain ⟨ds, hstory⟩ := Host.story_of_run hrun []
  have hchecks := (gazer (.array 1)).checks_contents hstory hw hbyValue
  exact ⟨t, u, hrun, hchecks, hsees, hchecks.returns _ u hsees (not_cyclic_of_knot hknot)⟩

/-- The array that is its own element is watched by its contents, and the check of it has no end. -/
theorem gazer_check_endless : ∃ t u watcher, (gazer (.array 0)).run 9 gazerSetup
      (.plant ⟨knot, ()⟩ ⟨.empty, .empty⟩ {} false) = some (.ok (), t) ∧
    t.watcher? 0 = some watcher ∧ watcher.byValue = true ∧
    (gazer (.array 0)).Sees t 0 (.array 0) u ∧ (gazer (.array 0)).Endless (·.check 0) t := by
  obtain ⟨t, u, watcher, hrun, hw, hbyValue, hlast, hsees, hw', hknot⟩ := gazer_run (.array 0)
  have hnone : u.record 0 (.array 0) = none :=
    Tree.record_eq_none_iff.2 ⟨watcher, hw', by rw [hlast]; rfl, hbyValue, cyclic_of_knot hknot⟩
  exact ⟨t, u, watcher, hrun, hw, hbyValue, hsees, hsees.endless hnone⟩

end DataBinding
