import DataBinding.Proofs.Episodes
import DataBinding.Proofs.Thawing

/-!
# What listeners are told, one time after another

The changes that the listener of a watcher is told of are a chain: the old value of each is the new
value of the one before (`Host.tellings_chain`).  For a watcher that compares by identity it is that
very value.  For one that compares contents it holds what that value held when it was checked, since
the record of it is frozen and nothing that happens to the value afterwards changes the record.

This is an invariant of stories: what a watcher has recorded is what its listener was told of last.
A record is made when a change is told, and nothing else touches it.
-/

namespace DataBinding

open Scene (Next Story)

variable {κ σ : Type}

/-! ## Records -/

namespace Tree

variable {t u : Tree κ σ} {w : WatcherId}

/-- What a watcher recorded last, and whether it compares contents. -/
def lastRecord (t : Tree κ σ) (w : WatcherId) : Option (Bool × Frozen) :=
  (t.watcher? w).bind fun watcher => watcher.last.map (watcher.byValue, ·)

lemma lastRecord_of_watchers (h : u.watchers = t.watchers) (w : WatcherId) :
    u.lastRecord w = t.lastRecord w := by
  rw [lastRecord, lastRecord, watcher?, watcher?, h]

/-- The records stay as they are where a watcher changes in something else. -/
lemma lastRecord_modifyWatcher {f : Watcher κ → Watcher κ}
    (hf : ∀ watcher, (f watcher).byValue = watcher.byValue ∧ (f watcher).last = watcher.last)
    (v w : WatcherId) : (t.modifyWatcher v f).lastRecord w = t.lastRecord w := by
  by_cases hw : w = v
  · subst hw
    rw [lastRecord, lastRecord, watcher?_modifyWatcher_self]
    cases t.watcher? w with
    | none => rfl
    | some watcher => simp [hf watcher]
  · rw [lastRecord, lastRecord, watcher?_modifyWatcher_of_ne hw]

lemma lastRecord_setKind (v : WatcherId) (kind : WatchKind κ) (w : WatcherId) :
    (t.setKind v kind).lastRecord w = t.lastRecord w :=
  lastRecord_modifyWatcher (f := ({ · with kind })) (fun _ => ⟨rfl, rfl⟩) v w

lemma lastRecord_addWatcher (s : ScopeId) (kind : WatchKind κ) (byValue : Bool) (w : WatcherId) :
    (t.addWatcher s kind byValue).2.lastRecord w = t.lastRecord w := by
  rcases lt_trichotomy w t.watchers.size with hlt | rfl | hgt
  · rw [lastRecord, lastRecord, watcher?_addWatcher_of_lt kind byValue hlt]
  · have hnone : t.watcher? t.watchers.size = none := by simp [watcher?]
    rw [lastRecord, lastRecord, watcher?_addWatcher_self, hnone]
    rfl
  · have hnone : t.watcher? w = none := Array.getElem?_eq_none hgt.le
    have hnone' : (t.addWatcher s kind byValue).2.watcher? w = none :=
      Array.getElem?_eq_none (by simpa [addWatcher] using hgt)
    rw [lastRecord, lastRecord, hnone, hnone']

lemma lastRecord_removeWatcher (v w : WatcherId) :
    (t.removeWatcher v).lastRecord w = t.lastRecord w := by
  have hkept : (t.modifyWatcher v ({ · with active := false })).lastRecord w = t.lastRecord w :=
    lastRecord_modifyWatcher (f := ({ · with active := false })) (fun _ => ⟨rfl, rfl⟩) v w
  rcases removeWatcher_cases t v with h | ⟨watcher, -, ⟨-, h⟩ | ⟨-, h⟩⟩ <;> rw [h]
  · exact hkept
  · exact hkept

lemma Act.lastRecord_eq (h : t.Act u) (w : WatcherId) : u.lastRecord w = t.lastRecord w := by
  cases h.registers with
  | addWatcher s kind byValue => exact lastRecord_addWatcher s kind byValue w
  | removeWatcher v => exact lastRecord_removeWatcher v w
  | removeListener l =>
    refine lastRecord_of_watchers ?_ w
    unfold Tree.removeListener
    split <;> rfl
  | newScope | addListener => exact lastRecord_of_watchers (by rfl) w
  | nothing _ hwatchers => exact lastRecord_of_watchers hwatchers w

lemma Drift.lastRecord_eq (h : t.Drift u) (w : WatcherId) : u.lastRecord w = t.lastRecord w := by
  cases h with
  | act h _ => exact h.lastRecord_eq w
  | tick h =>
    rcases h.eq_or_eq with ⟨_, _, rfl⟩ | ⟨_, _, rfl⟩ <;> exact lastRecord_of_watchers (by rfl) w
  | tearDown s =>
    obtain ⟨scopes, h⟩ := tearDown_eq_scopes t s
    rw [h]
    exact lastRecord_of_watchers (by rfl) w
  | setKind => exact lastRecord_setKind _ _ w
  | enter h =>
    obtain rfl := eq_of_enter h
    exact lastRecord_of_watchers (by rfl) w
  | start =>
    obtain ⟨_, _, h⟩ := cancelApply_eq { t with lastDirty := none }
    rw [h]
    exact lastRecord_of_watchers (by rfl) w
  | _ => exact lastRecord_of_watchers (by rfl) w

lemma lastRecord_noteCall (t : Tree κ σ) (call : Option (κ × Invocation)) (w : WatcherId) :
    (t.noteCall call).lastRecord w = t.lastRecord w := by
  cases call <;> rfl

end Tree

/-! ## Tellings -/

namespace Telling

variable {τ τ' : Telling κ} {t u : Tree κ σ} {w : WatcherId}

lemma lastRecord_prepared (τ : Telling κ) (t : Tree κ σ) (w : WatcherId) :
    (τ.prepared t).lastRecord w = t.lastRecord w := by
  unfold prepared
  split
  · exact Tree.lastRecord_setKind _ _ w
  · exact Tree.lastRecord_setKind _ _ w
  · rfl

/-- What the watcher records of the value that its listener is told of. -/
def record? (τ : Telling κ) : Option (Bool × Frozen) :=
  (τ.seen.recorded? τ.watcher.byValue τ.change.new).map (τ.watcher.byValue, ·)

/-- The telling goes by what the watcher recorded before: the new value does not agree with it, and
the old value is what it comes to.  If there is none, the old value is the new one. -/
def GoesBy (τ : Telling κ) : Option (Bool × Frozen) → Prop
  | none => τ.change.old = τ.change.new
  | some (byValue, f) => τ.watcher.byValue = byValue ∧ τ.seen.agrees f τ.change.new = false ∧
    (τ.change.old, τ.told) = f.thaw τ.seen

/-- How one telling of a watcher follows another.  For a watcher that compares by identity, the old
value is the new value of the telling before, and the new value is not the same.  For a watcher that
compares contents, the old value holds all that the new value of the telling before held when it was
checked, and the new value does not agree with that: deep equality tells the two apart, where the
old one was made without a change to the new one and no record has a name twice. -/
structure Follows (τ τ' : Telling κ) : Prop where
  identity : τ'.watcher.byValue = false →
    τ'.change.old = τ.change.new ∧ τ'.change.new.same τ'.change.old = false
  contents : τ'.watcher.byValue = true →
    ∃ f, τ.seen.freeze? τ.change.new = some f ∧ τ'.told.freeze? τ'.change.old = some f ∧
      τ'.seen.agrees f τ'.change.new = false
  apart : τ'.watcher.byValue = true → τ'.seen.Unchanged τ'.told τ'.change.new →
    (∀ o, (τ'.told.record o).keys.Nodup) →
      τ'.told.deepEq? τ'.change.old τ'.change.new = some false

/-- A telling that goes by the record of another one follows it. -/
lemma GoesBy.follows {x : Bool × Frozen} (hx : τ.record? = some x) (h : τ'.GoesBy (some x)) :
    τ.Follows τ' := by
  obtain ⟨f, hf, rfl⟩ := Option.map_eq_some_iff.1 hx
  obtain ⟨hsame, hdiffers, hthaw⟩ := h
  have hcontents : τ'.watcher.byValue = true →
      τ.seen.freeze? τ.change.new = some f ∧ τ'.told.freeze? τ'.change.old = some f := by
    intro hbyValue
    rw [hbyValue] at hsame
    rw [Heap.recorded?, ← hsame, if_pos rfl] at hf
    have hfreeze := Heap.freeze?_thaw hf τ'.seen
    rw [← hthaw] at hfreeze
    exact ⟨hf, hfreeze⟩
  refine ⟨fun hidentity => ?_, fun hbyValue => ?_, fun hbyValue hnew hnodup => ?_⟩
  · rw [hidentity] at hsame
    rw [Heap.recorded?, ← hsame, if_neg Bool.false_ne_true] at hf
    cases hf
    obtain ⟨hold, -⟩ := Prod.mk.inj hthaw
    rw [Heap.agrees] at hdiffers
    rw [hold]
    exact ⟨rfl, hdiffers⟩
  · obtain ⟨hbefore, hold⟩ := hcontents hbyValue
    exact ⟨f, hbefore, hold, hdiffers⟩
  · obtain ⟨-, hold⟩ := hcontents hbyValue
    rw [Heap.deepEq?_of_freeze? hnodup hold, Heap.agrees_of_unchanged f hnew, hdiffers]

/-- A change that is recorded goes by the record before, and the record after is that of its
telling. -/
lemma goesBy_of_record {new : Value} (hrecord : t.record τ.id new = some (some τ.change, u))
    (hw : u.watcher? τ.id = some τ.watcher) (hseen : τ.seen = t.store.heap)
    (htold : τ.told = u.store.heap) :
    τ.GoesBy (t.lastRecord τ.id) ∧
      ∃ x, τ.record? = some x ∧ u.lastRecord τ.id = some x := by
  obtain ⟨watcher, frozen, ht, hdiffers, hfrozen, hu, rfl, hold⟩ := Tree.record_some_cases hrecord
  have hwatcher := Option.some.inj (hw.symm.trans hu)
  have hbyValue : τ.watcher.byValue = watcher.byValue := by rw [hwatcher]
  constructor
  · rw [Tree.lastRecord, ht, Option.bind_some]
    cases hlast : watcher.last with
    | none =>
      rw [hlast] at hold
      exact (Prod.mk.inj hold).1
    | some f =>
      rw [hlast] at hold hdiffers
      refine ⟨hbyValue, hseen ▸ hdiffers, ?_⟩
      rw [hseen, htold]
      exact hold
  · refine ⟨(watcher.byValue, frozen), ?_, ?_⟩
    · rw [record?, hbyValue, hseen, hfrozen]
      rfl
    · rw [Tree.lastRecord, hu]
      rfl

end Telling

/-- The telling that is done, if it is one of that watcher. -/
def Deed.telling? (w : WatcherId) : Deed κ → Option (Telling κ)
  | .tell τ => if τ.id = w then some τ else none
  | _ => none

/-- The tellings of a watcher, the first one first. -/
def tellings (w : WatcherId) (ds : List (Deed κ)) : List (Telling κ) :=
  ds.filterMap (Deed.telling? w)

/-- The first telling has one and the same value as its new and its old one, and each other telling
follows the one before. -/
structure Telling.Chained (τs : List (Telling κ)) : Prop where
  first : ∀ τ ∈ τs.head?, τ.change.old = τ.change.new
  rest : τs.IsChain Telling.Follows

/-- The tellings are chained, and the last one of them has left the record. -/
structure Telling.Lead (τs : List (Telling κ)) (record : Option (Bool × Frozen)) : Prop where
  chained : Chained τs
  recorded : ∀ τ ∈ τs.getLast?, ∃ x, τ.record? = some x ∧ record = some x
  unrecorded : τs = [] → record = none

namespace Telling.Lead

variable {τs : List (Telling κ)} {τ : Telling κ} {before : Option (Bool × Frozen)}
  {x : Bool × Frozen}

lemma nil : Lead ([] : List (Telling κ)) none :=
  { chained := ⟨by simp, .nil⟩
    recorded := by simp
    unrecorded := fun _ => rfl }

/-- Another telling goes by the record of the last one. -/
lemma concat (h : Lead τs before) (hbefore : τ.GoesBy before) (hx : τ.record? = some x) :
    Lead (τs ++ [τ]) (some x) := by
  refine ⟨⟨fun τ' hτ' => ?_, List.isChain_append.2
    ⟨h.chained.rest, List.isChain_singleton τ, fun τ₁ hτ₁ τ₂ hτ₂ => ?_⟩⟩, fun τ' hτ' => ?_, ?_⟩
  · cases τs with
    | nil =>
      obtain rfl := Option.some.inj hτ'
      rw [h.unrecorded rfl] at hbefore
      exact hbefore
    | cons => exact h.chained.first τ' hτ'
  · obtain rfl := Option.some.inj hτ₂
    obtain ⟨y, hy, rfl⟩ := h.recorded τ₁ hτ₁
    exact hbefore.follows hy
  · rw [List.getLast?_concat] at hτ'
    obtain rfl := Option.some.inj hτ'
    exact ⟨x, hx, rfl⟩
  · intro hnil
    simp at hnil

end Telling.Lead

/-! ## Stories -/

namespace Scene

variable {m m' : Scene κ σ} {ds : List (Deed κ)}

/-- From one scene to the next a watcher keeps its record, or its listener is told of a change that
goes by the record before and leaves the record after. -/
lemma Next.tellings_cases (h : Next m ds m') (w : WatcherId) :
    (tellings w ds = [] ∧ m'.tree.lastRecord w = m.tree.lastRecord w) ∨
      ∃ τ x, tellings w ds = [τ] ∧ τ.GoesBy (m.tree.lastRecord w) ∧ τ.record? = some x ∧
        m'.tree.lastRecord w = some x := by
  cases h with
  | drift h => exact .inl ⟨rfl, h.lastRecord_eq w⟩
  | start h =>
    obtain ⟨_, rfl⟩ := Tree.eq_of_dequeue? h
    exact .inl ⟨rfl, rfl⟩
  | @tell frames t u new τ hrecord hw hseen htold =>
    have hafter : ((τ.prepared { u with lastDirty := some τ.id }).noteCall τ.call?).lastRecord w =
        u.lastRecord w :=
      (Tree.lastRecord_noteCall _ _ w).trans (τ.lastRecord_prepared _ w)
    by_cases hτ : τ.id = w
    · obtain ⟨hbefore, x, hx, hrecorded⟩ := Telling.goesBy_of_record hrecord hw hseen htold
      rw [hτ] at hbefore hrecorded
      exact .inr ⟨τ, x, by simp [tellings, Deed.telling?, hτ], hbefore, hx,
        hafter.trans hrecorded⟩
    · refine .inl ⟨by simp [tellings, Deed.telling?, hτ], hafter.trans ?_⟩
      rcases Tree.record_cases hrecord with ⟨h, -⟩ | ⟨_, frozen, store, -, rfl⟩
      · cases h
      · have hkept := Tree.watcher?_modifyWatcher_of_ne (t := t) (q := w) (w := τ.id)
          (Ne.symm hτ) ({ · with last := some frozen })
        exact congrArg (Option.bind · _) hkept
  | _ => exact .inl ⟨rfl, rfl⟩

/-- Where a watcher begins without a record, its tellings are chained, and its record is what the
last of them has left. -/
theorem Story.lead (h : Story m ds m') {w : WatcherId} (hm : m.tree.lastRecord w = Option.none) :
    Telling.Lead (tellings w ds) (m'.tree.lastRecord w) := by
  induction h with
  | none => exact hm ▸ .nil
  | @more m' m'' ds ds' _ hnext ih =>
    have happend : tellings w (ds ++ ds') = tellings w ds ++ tellings w ds' :=
      List.filterMap_append
    rw [happend]
    rcases hnext.tellings_cases w with ⟨hnone, hkept⟩ | ⟨τ, x, htold, hbefore, hx, hafter⟩
    · rw [hnone, List.append_nil, hkept]
      exact ih
    · rw [htold, hafter]
      exact ih.concat hbefore hx

/-- A watcher keeps its record as long as its listener is told of nothing. -/
lemma Story.lastRecord_of_untold (h : Story m ds m') {w : WatcherId} (hnone : tellings w ds = []) :
    m'.tree.lastRecord w = m.tree.lastRecord w := by
  induction h with
  | none => rfl
  | @more m' m'' ds ds' _ hnext ih =>
    have happend : tellings w (ds ++ ds') = tellings w ds ++ tellings w ds' :=
      List.filterMap_append
    obtain ⟨hbefore, hlast⟩ := List.append_eq_nil_iff.1 (happend.symm.trans hnone)
    rcases hnext.tellings_cases w with ⟨-, hkept⟩ | ⟨τ, x, htold, -⟩
    · exact hkept.trans (ih hbefore)
    · cases htold.symm.trans hlast

end Scene

/-! ## Runs -/

/-- The tellings of every watcher of a planted tree are chained: the first has the same value as new
and as old, and each later one goes by the new value of the one before.  That is so at every moment
of a story, and every run is a story whose calls are those that the journal notes. -/
theorem Host.tellings_chain (H : Host κ σ) (store : Store σ) (compiler : Compiler) (config : Config)
    (timed : Bool) :
    (∀ {α : Type} (limit : ℕ) (p : Program κ σ α) (r : Except Error α) (u : Tree κ σ),
      H.run limit p (.plant store compiler config timed) = some (r, u) →
      ∃ ds, Story ⟨[], .plant store compiler config timed⟩ ds ⟨[], u⟩ ∧
        u.calls = (ds.filterMap Deed.call?).reverse) ∧
    ∀ (m : Scene κ σ) (ds : List (Deed κ)),
      Story ⟨[], .plant store compiler config timed⟩ ds m →
      ∀ w, Telling.Chained (tellings w ds) := by
  constructor
  · intro α limit p r u h
    obtain ⟨ds, hstory⟩ := Host.story_of_run h []
    refine ⟨ds, hstory, ?_⟩
    rw [hstory.calls]
    exact List.append_nil _
  · intro m ds hstory w
    exact (hstory.lead rfl).chained

/-! ## A host that keeps a diary -/

/-- The procedures of the host. -/
inductive Diarist where
  /-- Looks at the first array. -/
  | look
  /-- Does nothing. -/
  | ignore

/-- A host with an array that it looks at. -/
def diarist : Host Diarist Unit where
  library := ⟨fun _ _ _ => .endless, fun _ _ => .endless⟩
  report := fun _ host => host
  procedure
    | .look, _ => return .array 0
    | .ignore, _ => return .undefined

/-- Watches an array by its contents, and digests. -/
def diaristSetup : Program Diarist Unit Unit := do
  discard <| Program.compute (Store.making (·.newArray #[]))
  discard <| Program.request (.watch rootId .look .ignore true)
  Program.request (.digest rootId)

/-- Writes an element into that array, and digests. -/
def diaristEntry : Program Diarist Unit Unit := do
  Program.compute (Store.changing (·.setItems 0 #[.null]))
  Program.request (.digest rootId)

/-- What is recorded of the array after the first digest, and after the second. -/
lemma diarist_run : ∃ t, diarist.run 9 diaristSetup
      (.plant ⟨.empty, ()⟩ ⟨.empty, .empty⟩ {} false) = some (.ok (), t) ∧
    t.lastRecord 0 = some (true, .array []) ∧
    ∃ u, diarist.run 9 diaristEntry t = some (.ok (), u) ∧
      u.lastRecord 0 = some (true, .array [.leaf .null]) := by
  generalize hx : diarist.run 9 diaristSetup _ = x
  cbv at hx
  subst hx
  refine ⟨_, rfl, rfl, ?_⟩
  generalize hy : diarist.run 9 diaristEntry _ = y
  cbv at hy
  subst hy
  exact ⟨_, rfl, rfl⟩

/-- The listener is told of the array, and told of it again once it has the element: the old value
holds then what the array held before. -/
theorem diarist_tellings_chain : ∃ t u ds earlier τ τ',
    diarist.run 9 diaristSetup (.plant ⟨.empty, ()⟩ ⟨.empty, .empty⟩ {} false) =
      some (.ok (), t) ∧ diarist.run 9 diaristEntry t = some (.ok (), u) ∧
    Story ⟨[], .plant ⟨.empty, ()⟩ ⟨.empty, .empty⟩ {} false⟩ ds ⟨[], u⟩ ∧
    tellings 0 ds = earlier ++ [τ, τ'] ∧ τ'.watcher.byValue = true ∧
    τ'.record? = some (true, .array [.leaf .null]) ∧
    ∃ f, τ.seen.freeze? τ.change.new = some f ∧ τ'.told.freeze? τ'.change.old = some f ∧
      τ'.seen.agrees f τ'.change.new = false := by
  obtain ⟨t, hsetup, ht, u, hentry, hu⟩ := diarist_run
  obtain ⟨hstories, hchains⟩ := diarist.tellings_chain ⟨.empty, ()⟩ ⟨.empty, .empty⟩ {} false
  obtain ⟨ds₁, hstory₁, -⟩ := hstories 9 diaristSetup _ t hsetup
  obtain ⟨ds₂, hstory₂⟩ := Host.story_of_run hentry []
  have hstory := hstory₁.trans hstory₂
  have happend : tellings 0 (ds₁ ++ ds₂) = tellings 0 ds₁ ++ tellings 0 ds₂ :=
    List.filterMap_append
  -- Each of the digests has changed the record, so there was a telling in each.
  have hfirst : tellings 0 ds₁ ≠ [] := fun hnone => by
    cases ht.symm.trans (hstory₁.lastRecord_of_untold hnone)
  have hsecond : tellings 0 ds₂ ≠ [] := fun hnone => by
    cases hu.symm.trans ((hstory₂.lastRecord_of_untold hnone).trans ht)
  obtain ⟨before, τ', hτ'⟩ := (List.eq_nil_or_concat' _).resolve_left hsecond
  obtain ⟨earlier, τ, hτ⟩ :=
    (List.eq_nil_or_concat' (tellings 0 ds₁ ++ before)).resolve_left (by simp [hfirst])
  have htellings : tellings 0 (ds₁ ++ ds₂) = earlier ++ [τ, τ'] := by
    rw [happend, hτ', ← List.append_assoc, hτ, List.append_assoc]
    rfl
  obtain ⟨x, hx, hlast⟩ := (hstory.lead rfl).recorded τ' (by rw [htellings]; simp)
  cases hu.symm.trans hlast
  have hbyValue : τ'.watcher.byValue = true := by
    obtain ⟨_, -, h⟩ := Option.map_eq_some_iff.1 hx
    exact (Prod.mk.inj h).1
  have hchain := (hchains _ _ hstory 0).rest
  rw [htellings] at hchain
  have hfollows : τ.Follows τ' := List.isChain_pair.1 (List.isChain_append.1 hchain).2.1
  exact ⟨t, u, ds₁ ++ ds₂, earlier, τ, τ', hsetup, hentry, hstory, htellings, hbyValue, hx,
    hfollows.contents hbyValue⟩

end DataBinding
