import DataBinding.Proofs.GroupCalls

/-!
# What the listener of a group is told

A group keeps two arrays, and a member writes to both of them when its value changes: the new value
into the one, and the value before the change into the other.  So as long as nobody else modifies
them the arrays can be read off what was handed on to the group (`Tree.Tallies`).

The listener is told of both arrays, but for its first call, when it is told of one of them twice
(`Host.group_told_of_last_changes`).  What the array of old values holds for a member is the value
before the last change of that member, however many calls ago that was.
-/

namespace DataBinding

open Compute (runOn)
open DataBinding.Tree (Spares)

variable {κ σ : Type} {g : GroupId}

/-! ## Turns of a member -/

namespace Turn

/-- The change that the member at this place hands on. -/
def handedAt (i : ℕ) : Turn → Option Change
  | probe j _ _ handed => if j = i then handed else none
  | _ => none

/-- The value that the member at this place is found to have. -/
def seenAt (i : ℕ) : Turn → Option Value
  | probe j _ value _ => if j = i then value else none
  | _ => none

/-- The changes that the member at this place handed on. -/
def finds (i : ℕ) (ts : List Turn) : List Change := ts.filterMap (handedAt i)

/-- The values that the member at this place was found to have. -/
def looks (i : ℕ) (ts : List Turn) : List Value := ts.filterMap (seenAt i)

/-- The stretch in which the host can do something. -/
def stretch : Turn → Stretch
  | aside elsewhere => elsewhere
  | probe _ looking _ _ => looking
  | call _ hearing => hearing

/-- Nobody but the members of the group modifies its arrays. -/
def Unmodified (newValues oldValues : ℕ) (ts : List Turn) : Prop :=
  ∀ turn ∈ ts, turn.stretch.after.items newValues = turn.stretch.before.items newValues ∧
    turn.stretch.after.items oldValues = turn.stretch.before.items oldValues

variable {i : ℕ} {ts : List Turn} {turn : Turn}

lemma finds_snoc (i : ℕ) (ts : List Turn) (turn : Turn) :
    finds i (ts ++ [turn]) = finds i ts ++ (turn.handedAt i).toList := by
  cases h : turn.handedAt i <;> simp [finds, h]

lemma finds_handed_self (i : ℕ) (ts : List Turn) (looking : Stretch) (value : Option Value)
    (c : Change) : finds i (ts ++ [probe i looking value (some c)]) = finds i ts ++ [c] := by
  rw [finds_snoc, handedAt, if_pos rfl, Option.toList_some]

lemma finds_handed_of_ne {j : ℕ} (hj : j ≠ i) (ts : List Turn) (looking : Stretch)
    (value : Option Value) (c : Change) :
    finds j (ts ++ [probe i looking value (some c)]) = finds j ts := by
  rw [finds_snoc, handedAt, if_neg hj.symm, Option.toList_none, List.append_nil]

lemma looks_snoc (i : ℕ) (ts : List Turn) (turn : Turn) :
    looks i (ts ++ [turn]) = looks i ts ++ (turn.seenAt i).toList := by
  cases h : turn.seenAt i <;> simp [looks, h]

end Turn

/-- The last value that was handed on. -/
def Change.latest (cs : List Change) : Option Value := cs.getLast?.map (·.new)

open Turn (finds looks Unmodified)

/-! ## Writes of members -/

/-- An index that there is can be written. -/
lemma writeItem_of_lt {items : Array Value} {i : ℕ} (h : i < items.size) (v : Value) :
    writeItem items i v = .ok (items.setIfInBounds i v) := if_pos h

/-- An array that has elements is there. -/
lemma Heap.lt_size_of_items {h : Heap} {a i : ℕ} (hi : i < (h.items a).size) :
    a < h.arrays.size := by
  by_contra hle
  rw [Heap.items, Array.getElem?_eq_none (not_lt.1 hle)] at hi
  simp at hi


lemma Engine.reactMember_of_lt {t u : Tree κ σ} {s : ScopeId} {i : ℕ} {change : Change}
    {group : Group κ} {r : Except Error Unit} (hgroup : t.groups[g]? = some group)
    (hab : group.newValues ≠ group.oldValues) (hnew : i < (t.store.heap.items group.newValues).size)
    (hold : i < (t.store.heap.items group.oldValues).size)
    (h : runOn (reactMember s g i change) t = some (r, u)) :
    r = .ok () ∧ ∃ heap, u = (t.withHeap heap).handOver s g ∧
      heap.items group.newValues =
        (t.store.heap.items group.newValues).setIfInBounds i change.new ∧
      heap.items group.oldValues =
        (t.store.heap.items group.oldValues).setIfInBounds i change.old := by
  have hnews := writeItem_of_lt hnew change.new
  have holds := writeItem_of_lt hold change.old
  have hkept : ∀ news, (t.store.heap.setItems group.newValues news).items group.oldValues =
      t.store.heap.items group.oldValues := fun news => Heap.items_setItems_of_ne _ hab.symm _
  rcases reactMember_steps hgroup h with
    ⟨_, _, -, -, hfailed | ⟨_, -, rfl, hfailed⟩⟩ | ⟨news, olds, heap, hw, rfl, hw', hr, hu⟩
  · cases hnews.symm.trans hfailed
  · rw [hkept] at hfailed
    cases holds.symm.trans hfailed
  · cases hnews.symm.trans hw
    rw [hkept] at hw'
    cases holds.symm.trans hw'
    refine ⟨hr, _, hu, ?_, ?_⟩
    · rw [Heap.items_setItems_of_ne _ hab]
      exact Heap.items_setItems_self _ (Heap.lt_size_of_items hnew) _
    · refine Heap.items_setItems_self _ ?_ _
      exact Heap.lt_size_of_items (hkept _ ▸ hold)

namespace Tree

variable {t u : Tree κ σ} {w : WatcherId} {watcher : Watcher κ}

/-- What a watcher records that compares by identity. -/
lemma record_of_leaf {value : Value} {last : Option Value} {change : Option Change}
    (hw : t.watcher? w = some watcher) (hbyValue : watcher.byValue = false)
    (hlast : watcher.last = last.map .leaf) (h : t.record w value = some (change, u)) :
    (∃ v ∈ last, change = none ∧ u = t ∧ value.same v = true) ∨
      change = some ⟨value, last.getD value⟩ ∧
        u = t.modifyWatcher w ({ · with last := some (.leaf value) }) := by
  unfold record at h
  rw [hw] at h
  dsimp only at h
  rw [hlast, hbyValue] at h
  cases last with
  | none =>
    cases h
    exact .inr ⟨rfl, rfl⟩
  | some v =>
    rw [Option.map_some, Option.any_some, Heap.agrees] at h
    by_cases hsame : value.same v = true
    · rw [if_pos hsame] at h
      cases h
      exact .inl ⟨v, rfl, rfl, rfl, hsame⟩
    · rw [if_neg hsame] at h
      cases h
      exact .inr ⟨rfl, rfl⟩

/-- The arrays of a new group are blank. -/
lemma items_addGroup (t : Tree κ σ) (listener : κ) (members : ℕ) :
    (t.addGroup listener members).2.store.heap.items t.store.heap.arrays.size =
        Array.replicate members .undefined ∧
      (t.addGroup listener members).2.store.heap.items (t.store.heap.arrays.size + 1) =
        Array.replicate members .undefined := by
  have hsize : (t.store.heap.newArray (Array.replicate members .undefined)).2.arrays.size =
      t.store.heap.arrays.size + 1 := Array.size_push _
  constructor
  · have hlt := (Nat.lt_succ_self _).trans_eq hsize.symm
    exact (Heap.items_newArray_of_lt _ _ hlt).trans (Heap.items_newArray_self t.store.heap _)
  · rw [← hsize]
    exact Heap.items_newArray_self _ _

/-- The group has these arrays, its members have these places, and what the members have recorded
and the arrays hold is what the turns since the beginning have left there. -/
structure Tallies (g : GroupId) (first : WatcherId) (size newValues oldValues : ℕ) (ts : List Turn)
    (t : Tree κ σ) : Prop where
  group : ∃ group, t.groups[g]? = some group ∧ group.newValues = newValues ∧
    group.oldValues = oldValues
  member : ∀ {w watcher}, t.watcher? w = some watcher → watcher.kind.group? = some g →
    ∃ watch i, watcher.kind = .member watch g i ∧ i < size ∧ w = first + i ∧
      watcher.byValue = false ∧ watcher.last = (Change.latest (finds i ts)).map .leaf
  new : ∀ {i}, i < size → (t.store.heap.items newValues)[i]? =
    some ((Change.latest (finds i ts)).getD .undefined)
  old : ∀ {i}, i < size → (t.store.heap.items oldValues)[i]? =
    some ((finds i ts).getLast?.elim .undefined (·.old))
  place : ∀ {i c}, c ∈ finds i ts → i < size
  link : ∀ {i xs c ys}, finds i ts = xs ++ c :: ys → c.old = (Change.latest xs).getD c.new
  seen : ∀ {i v}, v ∈ (looks i ts).getLast? →
    ∃ v' ∈ Change.latest (finds i ts), v.same v' = true

namespace Tallies

variable {first : WatcherId} {size a b i : ℕ} {ts : List Turn} {turn : Turn} {looking : Stretch}
  {value : Value}

/-- Nothing is tallied yet when the group is formed. -/
lemma formed (t : Tree κ σ) (hg : t.groups.size = g) (hlacks : t.Lacks g) (s : ScopeId)
    (watches : List κ) (listener : κ) :
    Tallies g t.watchers.size watches.length t.store.heap.arrays.size
      (t.store.heap.arrays.size + 1) [] (t.formGroup s watches listener).2 := by
  subst hg
  obtain ⟨_, _, _, heq, -⟩ := (t.addGroup listener watches.length).2.addMembers_cases s
    t.groups.size 0 watches
  have hheap : (t.formGroup s watches listener).2.store =
      (t.addGroup listener watches.length).2.store := congrArg (·.store) heq
  exact
    { group := ⟨_, t.groups_formGroup s watches listener, rfl, rfl⟩
      member := fun {w watcher} hw hg => by
        rw [formGroup, watcher?_addMembers] at hw
        split at hw
        · refine absurd ?_ (hlacks.member w)
          rw [groupOf?, show t.watcher? w = some watcher from hw]
          exact hg
        · next hlt =>
          obtain ⟨watch, hwatch, rfl⟩ := Option.map_eq_some_iff.1 hw
          have hle : t.watchers.size ≤ w := not_lt.1 hlt
          obtain ⟨hi, -⟩ := List.getElem?_eq_some_iff.1 hwatch
          refine ⟨watch, w - t.watchers.size, ?_, hi, (Nat.add_sub_cancel' hle).symm, rfl, rfl⟩
          rw [Nat.zero_add]
          rfl
      new := fun {i} hi => by
        rw [hheap, (items_addGroup t listener watches.length).1, Array.getElem?_replicate,
          if_pos hi]
        rfl
      old := fun {i} hi => by
        rw [hheap, (items_addGroup t listener watches.length).2, Array.getElem?_replicate,
          if_pos hi]
        rfl
      place := fun h => by cases h
      link := fun h => by simp [finds] at h
      seen := fun h => by cases h }

lemma of_spares (h : Tallies g first size a b ts t) (hspares : Spares g t u)
    (hnew : u.store.heap.items a = t.store.heap.items a)
    (hold : u.store.heap.items b = t.store.heap.items b) : Tallies g first size a b ts u where
  group := hspares.group ▸ h.group
  member {w watcher} hw hg := by
    obtain ⟨active, hbefore⟩ := hspares.before hw hg
    have hmember := h.member hbefore hg
    exact hmember
  new hi := hnew ▸ h.new hi
  old hi := hold ▸ h.old hi
  place := h.place
  link := h.link
  seen := h.seen

/-- A turn in which nothing is seen. -/
lemma idle (h : Tallies g first size a b ts t) (hfind : ∀ i, turn.handedAt i = none)
    (hlook : ∀ i, turn.seenAt i = none) : Tallies g first size a b (ts ++ [turn]) t := by
  have hfinds : ∀ i, finds i (ts ++ [turn]) = finds i ts := fun i => by
    rw [Turn.finds_snoc, hfind, Option.toList_none, List.append_nil]
  have hlooks : ∀ i, looks i (ts ++ [turn]) = looks i ts := fun i => by
    rw [Turn.looks_snoc, hlook, Option.toList_none, List.append_nil]
  exact
    { group := h.group
      member := fun hw hg => by simpa only [hfinds] using h.member hw hg
      new := fun hi => by simpa only [hfinds] using h.new hi
      old := fun hi => by simpa only [hfinds] using h.old hi
      place := fun hc => h.place (by simpa only [hfinds] using hc)
      link := fun hcs => h.link (by simpa only [hfinds] using hcs)
      seen := fun hv => by
        rw [hlooks] at hv
        simpa only [hfinds] using h.seen hv }

/-- A turn in which a member is found to have the value that it had. -/
lemma same (h : Tallies g first size a b ts t)
    (hsame : ∃ v ∈ Change.latest (finds i ts), value.same v = true) :
    Tallies g first size a b (ts ++ [.probe i looking (some value) none]) t := by
  have hfinds : ∀ j, finds j (ts ++ [.probe i looking (some value) none]) = finds j ts := by
    intro j
    rw [Turn.finds_snoc, Turn.handedAt, ite_self, Option.toList_none, List.append_nil]
  exact
    { group := h.group
      member := fun hw hg => by simpa only [hfinds] using h.member hw hg
      new := fun hi => by simpa only [hfinds] using h.new hi
      old := fun hi => by simpa only [hfinds] using h.old hi
      place := fun hc => h.place (by simpa only [hfinds] using hc)
      link := fun hcs => h.link (by simpa only [hfinds] using hcs)
      seen := fun {j v} hv => by
        rw [hfinds]
        rw [Turn.looks_snoc, Turn.seenAt] at hv
        by_cases hij : i = j
        · subst hij
          rw [if_pos rfl, Option.toList_some, List.getLast?_concat] at hv
          cases hv
          exact hsame
        · rw [if_neg hij, Option.toList_none, List.append_nil] at hv
          exact h.seen hv }

lemma lt_size (h : Tallies g first size a b ts t) (hi : i < size) :
    i < (t.store.heap.items a).size ∧ i < (t.store.heap.items b).size :=
  ⟨(Array.getElem?_eq_some_iff.1 (h.new hi)).1, (Array.getElem?_eq_some_iff.1 (h.old hi)).1⟩

/-- The change of a member is found and recorded. -/
lemma record_cases {change : Option Change} {watch : κ} (h : Tallies g first size a b ts t)
    (hw : t.watcher? w = some watcher) (hkind : watcher.kind = .member watch g i)
    (hrecord : t.record w value = some (change, u)) :
    i < size ∧ w = first + i ∧
      ((∃ v ∈ Change.latest (finds i ts), change = none ∧ u = t ∧ value.same v = true) ∨
        change = some ⟨value, (Change.latest (finds i ts)).getD value⟩ ∧
          u = t.modifyWatcher w ({ · with last := some (.leaf value) })) := by
  obtain ⟨_, _, hkind', hi, hplace, hbyValue, hlast⟩ := h.member hw (by rw [hkind]; rfl)
  cases hkind.symm.trans hkind'
  exact ⟨hi, hplace, record_of_leaf hw hbyValue hlast hrecord⟩

/-- A turn in which a change of a member is recorded and written to the arrays. -/
lemma written {c : Change} {watch : κ} (h : Tallies g first size a b ts t)
    (hw : t.watcher? w = some watcher) (hkind : watcher.kind = .member watch g i)
    (hold : c.old = (Change.latest (finds i ts)).getD c.new)
    (hgroup : ∃ group, u.groups[g]? = some group ∧ group.newValues = a ∧ group.oldValues = b)
    (hrecord : u.watchers = (t.modifyWatcher w ({ · with last := some (.leaf c.new) })).watchers)
    (hnews : u.store.heap.items a = (t.store.heap.items a).setIfInBounds i c.new)
    (holds : u.store.heap.items b = (t.store.heap.items b).setIfInBounds i c.old) :
    Tallies g first size a b (ts ++ [.probe i looking (some c.new) (some c)]) u := by
  obtain ⟨watch', _, hkind', hi, hplace, hbyValue, -⟩ := h.member hw (by rw [hkind]; rfl)
  cases hkind.symm.trans hkind'
  have hself := Turn.finds_handed_self i ts looking (some c.new) c
  have hother : ∀ {j}, j ≠ i → finds j (ts ++ [.probe i looking (some c.new) (some c)]) =
      finds j ts := fun hj => Turn.finds_handed_of_ne hj ts looking (some c.new) c
  have hlatest : Change.latest (finds i ts ++ [c]) = some c.new := by
    rw [Change.latest, List.getLast?_concat, Option.map_some]
  refine
    { group := hgroup
      member := fun {w' watcher'} hw' hg' => ?_
      new := fun {j} hj => ?_
      old := fun {j} hj => ?_
      place := fun {j d} hd => ?_
      link := fun {j xs d ys} hcs => ?_
      seen := fun {j v} hv => ?_ }
  · rw [watcher?, hrecord] at hw'
    replace hw' : (t.modifyWatcher w _).watcher? w' = some watcher' := hw'
    by_cases heq : w' = w
    · subst heq
      rw [watcher?_modifyWatcher_self, hw] at hw'
      cases hw'
      exact ⟨watch, i, hkind, hi, hplace, hbyValue, by rw [hself, hlatest]; rfl⟩
    · rw [watcher?_modifyWatcher_of_ne heq] at hw'
      obtain ⟨watch', j, hkind', hj, hplace', hbyValue, hlast⟩ := h.member hw' hg'
      have hne : j ≠ i := by
        rintro rfl
        exact heq (hplace'.trans hplace.symm)
      exact ⟨watch', j, hkind', hj, hplace', hbyValue, by rw [hother hne]; exact hlast⟩
  · rw [hnews, Array.getElem?_setIfInBounds]
    by_cases hij : i = j
    · subst hij
      rw [if_pos rfl, if_pos (h.lt_size hi).1, hself, hlatest]
      rfl
    · rw [if_neg hij, hother (Ne.symm hij)]
      exact h.new hj
  · rw [holds, Array.getElem?_setIfInBounds]
    by_cases hij : i = j
    · subst hij
      rw [if_pos rfl, if_pos (h.lt_size hi).2, hself, List.getLast?_concat]
      rfl
    · rw [if_neg hij, hother (Ne.symm hij)]
      exact h.old hj
  · by_cases hij : i = j
    · exact hij ▸ hi
    · rw [hother (Ne.symm hij)] at hd
      exact h.place hd
  · by_cases hij : i = j
    · subst hij
      rw [hself] at hcs
      rcases List.eq_nil_or_concat ys with rfl | ⟨ys, y, rfl⟩
      · obtain ⟨rfl, hc⟩ := List.append_inj' hcs rfl
        cases hc
        exact hold
      · rw [List.concat_eq_append, ← List.cons_append, ← List.append_assoc] at hcs
        exact h.link (List.append_inj' hcs rfl).1
    · rw [hother (Ne.symm hij)] at hcs
      exact h.link hcs
  · rw [Turn.looks_snoc, Turn.seenAt] at hv
    by_cases hij : i = j
    · subst hij
      rw [if_pos rfl, Option.toList_some, List.getLast?_concat] at hv
      cases hv
      exact ⟨c.new, by rw [hself, hlatest]; rfl, Value.same_self c.new⟩
    · rw [if_neg hij, Option.toList_none, List.append_nil] at hv
      rw [hother (Ne.symm hij)]
      exact h.seen hv

/-- The arrays take a change of a member in. -/
lemma handed {change : Change} {watch : κ} {x : Tree κ σ} {s : ScopeId} {r : Except Error Unit}
    (h : Tallies g first size a b ts t) (hab : a ≠ b) (hw : t.watcher? w = some watcher)
    (hkind : watcher.kind = .member watch g i)
    (hrecord : t.record w value = some (some change, x))
    (hreact : runOn (Engine.reactMember s g i change) { x with lastDirty := some w } =
      some (r, u)) :
    r = .ok () ∧ ∀ looking : Stretch,
      Tallies g first size a b (ts ++ [.probe i looking (some value) (some change)]) u := by
  obtain ⟨hi, -, ⟨_, -, hnone, -⟩ | ⟨hchange, rfl⟩⟩ := h.record_cases hw hkind hrecord
  · cases hnone
  cases hchange
  obtain ⟨group, hgroup, rfl, rfl⟩ := h.group
  obtain ⟨rfl, heap, hu, hnews, holds⟩ :=
    Engine.reactMember_of_lt (t := { t.modifyWatcher w _ with lastDirty := some w }) hgroup hab
      (h.lt_size hi).1 (h.lt_size hi).2 hreact
  obtain ⟨queues, deferral, journal, hover, -⟩ := handOver_cases
    (withHeap { t.modifyWatcher w ({ · with last := some (.leaf value) }) with
      lastDirty := some w } heap) s g
  rw [hover] at hu
  refine ⟨rfl, fun looking => h.written (c := ⟨value, _⟩) hw hkind rfl ?_ ?_ ?_ ?_⟩
  · refine ⟨{ group with scheduled := true }, ?_, rfl, rfl⟩
    rw [hu]
    simp [scheduleGroup, withHeap, Tree.modifyGroup, Tree.modifyWatcher, Array.getElem?_modify,
      hgroup]
  · rw [hu]
    rfl
  · rw [hu]
    exact hnews
  · rw [hu]
    exact holds

end Tallies

end Tree

open DataBinding.Tree (Tallies)

/-! ## Tallies along a run -/

section Along

variable {E : Engine κ σ} {H : Host κ σ} {t u : Tree κ σ} {w first : WatcherId} {size a b : ℕ}
  {turn : Turn} {ts ts' : List Turn} {es : List (List Turn)}

lemma Engine.Glances.watcher {index : ℕ} {s : ScopeId} {r : Except Error Value}
    (h : E.Glances g w index s t r u) :
    ∃ watcher watch, u.watcher? w = some watcher ∧ watcher.kind = .member watch g index := by
  obtain ⟨watcher, watch, hw, -, hkind, -⟩ := h.run
  obtain ⟨active, hu⟩ := h.spares.member hw (by rw [hkind]; rfl)
  exact ⟨_, watch, hu, hkind⟩

/-- A probe is tallied, if the arrays are not modified while the member looks. -/
lemma Engine.Probes.tallies (h : E.Probes g w t turn u) (hab : a ≠ b)
    (ht : Tallies g first size a b ts t) (hkept : Unmodified a b [turn]) :
    Tallies g first size a b (ts ++ [turn]) u := by
  obtain ⟨hnew, hold⟩ := hkept turn (List.mem_singleton_self turn)
  cases h with
  | failed h _ hspares =>
    have hu := ht.of_spares (trans_of (Spares g) h.spares hspares) hnew hold
    exact hu.idle (fun _ => ite_self _) fun _ => ite_self _
  | same h hrecord =>
    have hv := ht.of_spares h.spares hnew hold
    obtain ⟨watcher, watch, hw, hkind⟩ := h.watcher
    obtain ⟨-, -, ⟨v', hv', -, rfl, hsame⟩ | ⟨hchange, -⟩⟩ := hv.record_cases hw hkind hrecord
    · exact hv.same ⟨v', hv', hsame⟩
    · cases hchange
  | refused h hrecord hreact =>
    have hv := ht.of_spares h.spares hnew hold
    obtain ⟨watcher, watch, hw, hkind⟩ := h.watcher
    obtain ⟨hr, -⟩ := hv.handed hab hw hkind hrecord hreact
    cases hr
  | handed h hrecord hreact =>
    have hv := ht.of_spares h.spares hnew hold
    obtain ⟨watcher, watch, hw, hkind⟩ := h.watcher
    exact (hv.handed hab hw hkind hrecord hreact).2 _

/-- A probe may schedule the group, and keeps the rest of it. -/
lemma Engine.Probes.group {group : Group κ} (h : E.Probes g w t turn u)
    (hgroup : t.groups[g]? = some group) :
    ∃ scheduled, u.groups[g]? = some { group with scheduled } := by
  have hrecorded : ∀ {v x : Tree κ σ} {value : Value} {change : Option Change},
      t.Spares g v → v.record w value = some (change, x) → x.groups[g]? = some group := by
    intro v x value change hspares hrecord
    obtain ⟨_, _, rfl⟩ := Tree.eq_of_record hrecord
    exact hspares.group.trans hgroup
  cases h with
  | failed h _ hspares =>
    exact ⟨_, (hspares.group.trans h.spares.group).trans hgroup⟩
  | same h hrecord => exact ⟨_, hrecorded h.spares hrecord⟩
  | @refused _ s _ _ _ v x y _ h hrecord hreact _ hspares =>
    have hx := hrecorded h.spares hrecord
    rcases reactMember_steps (t := { x with lastDirty := some w }) hx hreact with
      ⟨_, heap, -, rfl, -⟩ | ⟨_, _, _, -, -, -, hr, -⟩
    · exact ⟨_, hspares.group.trans hx⟩
    · cases hr
  | @handed _ s _ _ v x _ h hrecord hreact =>
    have hx := hrecorded h.spares hrecord
    rcases reactMember_steps (t := { x with lastDirty := some w }) hx hreact with
      ⟨_, _, hr, -⟩ | ⟨_, olds, heap, -, -, -, -, rfl⟩
    · cases hr
    · obtain ⟨queues, deferral, journal, hover, -⟩ := Tree.handOver_cases
        (Tree.withHeap { x with lastDirty := some w } (heap.setItems group.oldValues olds)) s g
      refine ⟨true, ?_⟩
      rw [hover]
      simp [Tree.scheduleGroup, Tree.withHeap, Tree.modifyGroup, Array.getElem?_modify, hx]

/-- A call tells the listener of the array of new values, and beside it of the array of old values
unless it is the first call. -/
lemma Engine.Rings.tells {group : Group κ} (h : E.Rings g t turn u)
    (hgroup : t.groups[g]? = some group) :
    turn = .call ⟨.array group.newValues,
        if group.firstRun then .array group.newValues else .array group.oldValues⟩
      ⟨t.store.heap, u.store.heap⟩ ∧
      u.groups[g]? = some { group with firstRun := false, scheduled := false } := by
  cases h with
  | @intro task group' change r v x y _ hnext hwork hfound hchange htell hspares hend hends =>
    cases hchange
    obtain ⟨rest, rfl⟩ := Tree.eq_of_dequeue? hnext
    cases hgroup.symm.trans hfound
    have hy : y.groups[g]? = some { group with firstRun := false } := by
      rw [hspares.group]
      simp [Tree.modifyGroup, Array.getElem?_modify, hfound]
    refine ⟨rfl, hends.group.trans ?_⟩
    simp [Tree.unscheduleGroup, Tree.modifyGroup, Array.getElem?_modify, hy]

/-- A call is tallied, if the listener does not modify the arrays. -/
lemma Engine.Rings.tallies (h : E.Rings g t turn u) (ht : Tallies g first size a b ts t)
    (hkept : Unmodified a b [turn]) : Tallies g first size a b (ts ++ [turn]) u := by
  obtain ⟨group, hgroup, hnews, holds⟩ := ht.group
  obtain ⟨hturn, hleft⟩ := h.tells hgroup
  obtain ⟨hnew, hold⟩ := hkept turn (List.mem_singleton_self turn)
  rw [hturn] at hnew hold ⊢
  suffices hu : Tallies g first size a b ts u from hu.idle (fun _ => rfl) fun _ => rfl
  refine ⟨⟨_, hleft, hnews, holds⟩, fun {w watcher} hw hg => ?_, fun hi => ?_, fun hi => ?_,
    ht.place, ht.link, ht.seen⟩
  · cases h with
    | @intro task group' change r v x y _ hnext hwork hfound hchange htell hspares hend hends =>
      cases hchange
      obtain ⟨rest, rfl⟩ := Tree.eq_of_dequeue? hnext
      obtain ⟨active, hy⟩ := hends.before hw hg
      obtain ⟨active', hx⟩ := hspares.before hy hg
      have hmember := ht.member hx hg
      exact hmember
  · exact (congrArg (·[_]?) hnew).trans (ht.new hi)
  · exact (congrArg (·[_]?) hold).trans (ht.old hi)

/-- The group has these arrays, and its listener was called before or not. -/
def Tree.Presents (g : GroupId) (newValues oldValues : ℕ) (called : Bool) (t : Tree κ σ) : Prop :=
  ∃ group, t.groups[g]? = some group ∧ group.newValues = newValues ∧
    group.oldValues = oldValues ∧ group.firstRun = !called

open DataBinding.Tree (Presents)

lemma unmodified_append : Unmodified a b (ts ++ ts') ↔ Unmodified a b ts ∧ Unmodified a b ts' :=
  List.forall_mem_append

namespace Host

theorem Turns.tallies (h : H.Turns g t ts' u) (hab : a ≠ b) (ht : Tallies g first size a b ts t)
    (hkept : Unmodified a b ts') : Tallies g first size a b (ts ++ ts') u := by
  induction h with
  | none =>
    rw [List.append_nil]
    exact ht
  | aside _ hspares ih =>
    obtain ⟨hbefore, haside⟩ := unmodified_append.1 hkept
    obtain ⟨hnew, hold⟩ := haside _ (List.mem_singleton_self _)
    rw [← List.append_assoc]
    exact ((ih hbefore).of_spares hspares hnew hold).idle (fun _ => rfl) fun _ => rfl
  | probe _ _ _ hprobes ih =>
    obtain ⟨hbefore, hprobe⟩ := unmodified_append.1 hkept
    rw [← List.append_assoc]
    exact hprobes.tallies hab (ih hbefore) hprobe

/-- As long as nobody else modifies the arrays of the group, they hold what its members have handed
on. -/
theorem Muster.tallies (h : H.Muster g t es u) (hab : a ≠ b)
    (ht : Tallies g first size a b ts t) (hkept : Unmodified a b es.flatten) :
    Tallies g first size a b (ts ++ es.flatten) u := by
  induction h with
  | none =>
    rw [List.flatten_nil, List.append_nil]
    exact ht
  | aside _ hspares ih =>
    rw [List.flatten_append, List.flatten_singleton] at hkept ⊢
    obtain ⟨hbefore, haside⟩ := unmodified_append.1 hkept
    obtain ⟨hnew, hold⟩ := haside _ (List.mem_singleton_self _)
    rw [← List.append_assoc]
    exact ((ih hbefore).of_spares hspares hnew hold).idle (fun _ => rfl) fun _ => rfl
  | @pass u v es ts' s _ _ _ hturns ih =>
    rw [List.flatten_append, List.flatten_singleton] at hkept ⊢
    obtain ⟨hbefore, hpass⟩ := unmodified_append.1 hkept
    have hnoted : Tallies g first size a b (ts ++ es.flatten) (u.note (.pass s)) :=
      { ih hbefore with }
    rw [← List.append_assoc]
    exact hturns.tallies hab hnoted hpass
  | call _ _ _ _ hrings ih =>
    rw [List.flatten_append, List.flatten_singleton] at hkept ⊢
    obtain ⟨hbefore, hcall⟩ := unmodified_append.1 hkept
    rw [← List.append_assoc]
    exact hrings.tallies (ih hbefore) hcall

lemma Turns.presents {called : Bool} (h : H.Turns g t ts u) (ht : t.Presents g a b called) :
    u.Presents g a b called := by
  induction h with
  | none => exact ht
  | aside _ hspares ih =>
    obtain ⟨group, hgroup, hrest⟩ := ih
    exact ⟨group, hspares.group.trans hgroup, hrest⟩
  | probe _ _ _ hprobes ih =>
    obtain ⟨group, hgroup, hrest⟩ := ih
    obtain ⟨scheduled, hgroup'⟩ := hprobes.group hgroup
    exact ⟨_, hgroup', hrest⟩

lemma Turns.any_isCall (h : H.Turns g t ts u) : ts.any Turn.isCall = false :=
  List.any_eq_false.2 fun turn hturn => ne_true_of_eq_false (h.not_call turn hturn)

lemma Muster.presents {called : Bool} (h : H.Muster g t es u) (ht : t.Presents g a b called) :
    u.Presents g a b (called || es.flatten.any Turn.isCall) := by
  induction h with
  | none =>
    rw [List.flatten_nil, List.any_nil, Bool.or_false]
    exact ht
  | aside _ hspares ih =>
    obtain ⟨group, hgroup, hrest⟩ := ih
    refine ⟨group, hspares.group.trans hgroup, ?_⟩
    simpa [Turn.isCall] using hrest
  | pass s _ _ _ hturns ih =>
    rw [List.flatten_append, List.flatten_singleton, List.any_append, hturns.any_isCall,
      Bool.or_false]
    obtain ⟨group, hgroup, hrest⟩ := ih
    exact hturns.presents ⟨group, hgroup, hrest⟩
  | call _ _ _ _ hrings ih =>
    obtain ⟨group, hgroup, hnew, hold, -⟩ := ih
    obtain ⟨rfl, hleft⟩ := hrings.tells hgroup
    refine ⟨_, hleft, hnew, hold, ?_⟩
    simp [Turn.isCall]

/-- A call that is not among the last turns was before them. -/
lemma call_earlier {before after : List Turn} {change : Change} {hearing : Stretch}
    (hnone : ts'.any Turn.isCall = false)
    (heq : ts ++ ts' = before ++ .call change hearing :: after) :
    ∃ after', ts = before ++ .call change hearing :: after' := by
  have hnot : Turn.call change hearing ∉ ts' := fun h => List.any_eq_false.1 hnone _ h rfl
  rcases List.append_eq_append_iff.1 heq with ⟨rest, -, hts'⟩ | ⟨rest, hts, hrest⟩
  · exact absurd (by simp [hts']) hnot
  · cases rest with
    | nil => exact absurd (by simp [show ts' = _ from hrest.symm]) hnot
    | cons turn rest =>
      cases hrest
      exact ⟨rest, hts⟩

/-- What there was before a call. -/
lemma Muster.split {before after : List Turn} {change : Change} {hearing : Stretch}
    (h : H.Muster g t es u) (hes : es.flatten = before ++ .call change hearing :: after) :
    ∃ es₀ v x limit, H.Muster g t es₀ v ∧ es₀.flatten = before ∧
      (H.engine limit).Rings g v (.call change hearing) x := by
  induction h generalizing after with
  | none => simp at hes
  | aside _ _ ih =>
    rw [List.flatten_append, List.flatten_singleton] at hes
    obtain ⟨after', hes'⟩ := call_earlier rfl hes
    exact ih hes'
  | pass s _ _ _ hturns ih =>
    rw [List.flatten_append, List.flatten_singleton] at hes
    obtain ⟨after', hes'⟩ := call_earlier hturns.any_isCall hes
    exact ih hes'
  | call hmuster _ _ _ hrings ih =>
    rw [List.flatten_append, List.flatten_singleton] at hes
    rcases List.eq_nil_or_concat after with rfl | ⟨after, turn, rfl⟩
    · obtain ⟨hbefore, hturn⟩ := List.append_inj' hes rfl
      cases hturn
      exact ⟨_, _, _, _, hmuster, hbefore, hrings⟩
    · rw [List.concat_eq_append, ← List.cons_append, ← List.append_assoc] at hes
      exact ih (List.append_inj' hes rfl).1

/-- A call that is not among the first turns was after them. -/
lemma call_later {before after : List Turn} {change : Change} {hearing : Stretch}
    (hnone : ts.any Turn.isCall = false)
    (heq : ts ++ ts' = before ++ .call change hearing :: after) :
    ∃ before', before = ts ++ before' ∧ ts' = before' ++ .call change hearing :: after := by
  have hnot : Turn.call change hearing ∉ ts := fun h => List.any_eq_false.1 hnone _ h rfl
  rcases List.append_eq_append_iff.1 heq with ⟨rest, hbefore, hts'⟩ | ⟨rest, hts, hrest⟩
  · exact ⟨rest, hbefore, hts'⟩
  · cases rest with
    | nil => exact ⟨[], by simpa using hts.symm, by simpa using hrest.symm⟩
    | cons turn rest =>
      cases hrest
      exact absurd (by simp [hts]) hnot

/-- When the group is formed its listener was not called yet, and nothing is tallied.  The arrays
were made one after the other. -/
lemma Debut.presents (h : H.Debut g ts u) : ∃ a first size, u.Presents g a (a + 1) false ∧
    (Unmodified a (a + 1) ts → Tallies g first size a (a + 1) ts u) := by
  obtain @⟨t, _, _, s, watches, listener, rfl, hlacks, hturns⟩ := h
  refine ⟨t.store.heap.arrays.size, t.watchers.size, watches.length, ?_, ?_⟩
  · exact hturns.presents ⟨_, t.groups_formGroup s watches listener, rfl, rfl, rfl⟩
  · have hformed := Tallies.formed t rfl hlacks s watches listener
    exact hturns.tallies (Nat.succ_ne_self _).symm hformed

lemma Debut.any_isCall (h : H.Debut g ts u) : ts.any Turn.isCall = false := by
  obtain ⟨s, watches, listener, -, -, hturns⟩ := h
  exact hturns.any_isCall

lemma Career.arrays_ne {group : Group κ} (h : H.Career g es u)
    (hgroup : u.groups[g]? = some group) : group.newValues ≠ group.oldValues := by
  obtain ⟨hdebut, hmuster⟩ := h
  obtain ⟨a, -, -, hformed, -⟩ := hdebut.presents
  obtain ⟨last, hlast, hnews, holds, -⟩ := hmuster.presents hformed
  cases hgroup.symm.trans hlast
  rw [hnews, holds]
  exact (Nat.succ_ne_self a).symm

/-- What a call of the listener tells, after all that there was for the group before. -/
theorem Career.told {before after : List Turn} {change : Change} {hearing : Stretch}
    {group : Group κ} (h : H.Career g es u) (hgroup : u.groups[g]? = some group)
    (hes : es.flatten = before ++ .call change hearing :: after) :
    change.new = .array group.newValues ∧
      change.old =
        .array (if before.any Turn.isCall then group.oldValues else group.newValues) ∧
      (Unmodified group.newValues group.oldValues before → ∃ (t : Tree κ σ) (first size : ℕ),
        hearing.before = t.store.heap ∧
        Tallies g first size group.newValues group.oldValues before t) := by
  have hab := h.arrays_ne hgroup
  obtain ⟨hdebut, hmuster⟩ := h
  obtain ⟨a, first, size, hpresent, hformed⟩ := hdebut.presents
  obtain ⟨last, hlast, hnews, holds, -⟩ := hmuster.presents hpresent
  cases hgroup.symm.trans hlast
  rw [List.flatten_cons] at hes
  obtain ⟨before, rfl, hlater⟩ := call_later hdebut.any_isCall hes
  obtain ⟨es₀, v, x, limit, hmuster₀, rfl, hrings⟩ := hmuster.split hlater
  obtain ⟨group', hgroup', hnews', holds', hfirst⟩ := hmuster₀.presents hpresent
  obtain ⟨hturn, -⟩ := hrings.tells hgroup'
  cases hturn
  refine ⟨by rw [hnews', hnews], ?_, fun hkept => ?_⟩
  · rw [hfirst, hnews', holds', hnews, holds, List.any_append, hdebut.any_isCall]
    cases es₀.flatten.any Turn.isCall <;> rfl
  · obtain ⟨hkept, hkept₀⟩ := unmodified_append.1 hkept
    rw [← holds, ← hnews] at hformed
    exact ⟨v, first, size, rfl, hmuster₀.tallies hab (hformed hkept) hkept₀⟩

section Call

variable {before after earlier since : List Turn} {change change' : Change}
  {hearing hearing' : Stretch} {group : Group κ} {i : ℕ} {c : Change}

/-- What the arrays hold for a member of the group when the listener is called, if nobody else has
modified them: the value of its last change, and the value before that. -/
theorem Career.contents (h : H.Career g es u) (hgroup : u.groups[g]? = some group)
    (hes : es.flatten = before ++ .call change hearing :: after)
    (hkept : Unmodified group.newValues group.oldValues before) {cs : List Change}
    (hcs : finds i before = cs ++ [c]) :
    (hearing.before.items group.newValues)[i]? = some c.new ∧
      (hearing.before.items group.oldValues)[i]? = some c.old ∧
      c.old = (Change.latest cs).getD c.new := by
  obtain ⟨-, -, htally⟩ := h.told hgroup hes
  obtain ⟨t, first, size, hheap, htally⟩ := htally hkept
  have hi := htally.place (i := i) (c := c) (by simp [hcs])
  rw [hheap]
  refine ⟨?_, ?_, htally.link hcs⟩
  · rw [htally.new hi, hcs, Change.latest, List.getLast?_concat, Option.map_some, Option.getD_some]
  · rw [htally.old hi, hcs, List.getLast?_concat, Option.elim_some]

/-- A member that was found to have a value has handed it on. -/
theorem Career.found (h : H.Career g es u) (hgroup : u.groups[g]? = some group)
    (hes : es.flatten = before ++ .call change hearing :: after)
    (hkept : Unmodified group.newValues group.oldValues before) {value : Value}
    (hvalue : value ∈ (looks i before).getLast?) :
    ∃ cs c, finds i before = cs ++ [c] ∧ value.same c.new = true := by
  obtain ⟨-, -, htally⟩ := h.told hgroup hes
  obtain ⟨t, first, size, -, htally⟩ := htally hkept
  obtain ⟨value', hlatest, hsame⟩ := htally.seen hvalue
  obtain ⟨c, hlast, rfl⟩ := Option.map_eq_some_iff.1 hlatest
  obtain ⟨cs, hcs⟩ := List.getLast?_eq_some_iff.1 hlast
  exact ⟨cs, c, hcs, hsame⟩

lemma finds_of_call (i : ℕ) (earlier since : List Turn) (change : Change) (hearing : Stretch) :
    finds i (earlier ++ .call change hearing :: since) = finds i earlier ++ finds i since := by
  rw [finds, List.filterMap_append, List.filterMap_cons_none rfl]
  rfl

/-- What two calls tell of a member, if nobody else has modified the arrays until the second one. -/
theorem Career.contents_between (h : H.Career g es u) (hgroup : u.groups[g]? = some group)
    (hes : es.flatten =
      (earlier ++ .call change' hearing' :: since) ++ .call change hearing :: after)
    (hkept : Unmodified group.newValues group.oldValues
      (earlier ++ .call change' hearing' :: since)) (hfound : finds i earlier ≠ []) :
    (finds i since = [] → ∀ a ∈ [group.newValues, group.oldValues],
      (hearing.before.items a)[i]? = (hearing'.before.items a)[i]?) ∧
      ∀ c, finds i since = [c] → (hearing.before.items group.oldValues)[i]? =
        (hearing'.before.items group.newValues)[i]? := by
  have hes' : es.flatten =
      earlier ++ .call change' hearing' :: (since ++ .call change hearing :: after) := by
    rw [hes, List.append_assoc, List.cons_append]
  obtain ⟨cs, c, hcs⟩ := (List.eq_nil_or_concat' _).resolve_left hfound
  obtain ⟨hnew', hold', -⟩ := h.contents hgroup hes' (unmodified_append.1 hkept).1 hcs
  have hall := finds_of_call i earlier since change' hearing'
  rw [hcs] at hall
  refine ⟨fun hsince a ha => ?_, fun c' hsince => ?_⟩
  · rw [hsince, List.append_nil] at hall
    obtain ⟨hnew, hold, -⟩ := h.contents hgroup hes hkept hall
    simp only [List.mem_cons, List.not_mem_nil, or_false] at ha
    rcases ha with rfl | rfl
    · exact hnew.trans hnew'.symm
    · exact hold.trans hold'.symm
  · rw [hsince] at hall
    obtain ⟨-, hold, hlink⟩ := h.contents hgroup hes hkept hall
    rw [hold, hnew', hlink, Change.latest, List.getLast?_concat]
    rfl

end Call

end Host

end Along

/-- A run in which a group is formed is a career of the group.  Its listener is told of the array of
new values, and beside it of the array of old values, or of the array of new values twice if it is
the first call.

As long as nobody else modifies these arrays, the one holds the value of the last change of each
member, which is the value that the member was last found to have, and the other holds the value
before that change, or the same value if it was the first one.  So if a member has changed once
since the call before, the old value is the one that the listener was told as the new one then; and
if it has not changed since, it is told the same two values again. -/
theorem Host.group_told_of_last_changes (H : Host κ σ) (g : GroupId) (store : Store σ)
    (compiler : Compiler) (config : Config) (timed : Bool) :
    (∀ {α : Type} (limit : ℕ) (p : Program κ σ α) (r : Except Error α) (u : Tree κ σ),
      H.run limit p (.plant store compiler config timed) = some (r, u) →
      u.Lacks g ∨ ∃ es, H.Career g es u) ∧
    ∀ (es : List (List Turn)) (u : Tree κ σ) (group : Group κ), H.Career g es u →
      u.groups[g]? = some group → group.newValues ≠ group.oldValues ∧
      ∀ (before : List Turn) (change : Change) (hearing : Stretch) (after : List Turn),
        es.flatten = before ++ Turn.call change hearing :: after →
        change.new = .array group.newValues ∧
        change.old =
          .array (if before.any Turn.isCall then group.oldValues else group.newValues) ∧
        (Unmodified group.newValues group.oldValues before →
          (∀ (i : ℕ), ∀ value ∈ (looks i before).getLast?,
            ∃ (cs : List Change) (c : Change), finds i before = cs ++ [c] ∧
              value.same c.new = true) ∧
          (∀ (i : ℕ) (cs : List Change) (c : Change), finds i before = cs ++ [c] →
            (hearing.before.items group.newValues)[i]? = some c.new ∧
            (hearing.before.items group.oldValues)[i]? = some c.old ∧
            c.old = (Change.latest cs).getD c.new) ∧
          ∀ (earlier : List Turn) (change' : Change) (hearing' : Stretch) (since : List Turn),
            before = earlier ++ Turn.call change' hearing' :: since →
            ∀ (i : ℕ), finds i earlier ≠ [] →
              (finds i since = [] → ∀ a ∈ [group.newValues, group.oldValues],
                (hearing.before.items a)[i]? = (hearing'.before.items a)[i]?) ∧
              ∀ c, finds i since = [c] → (hearing.before.items group.oldValues)[i]? =
                (hearing'.before.items group.newValues)[i]?) := by
  refine ⟨fun limit p r u h => career_of_run h, fun es u group h hgroup =>
    ⟨h.arrays_ne hgroup, fun before change hearing after hes => ?_⟩⟩
  obtain ⟨hnew, hold, -⟩ := h.told hgroup hes
  refine ⟨hnew, hold, fun hkept => ⟨fun i value hvalue => h.found hgroup hes hkept hvalue,
    fun i cs c hcs => h.contents hgroup hes hkept hcs, ?_⟩⟩
  rintro earlier change' hearing' since rfl i hfound
  exact h.contents_between hgroup hes hkept hfound

/-! ## A host that notes what it is told -/

/-- The procedures of a host with two inputs. -/
inductive Archivist
  | first
  | second
  | listen

/-- The two inputs, and what the listener was told, the last call first. -/
structure Archive where
  first : Bool := false
  second : Bool := false
  told : List (Array Value × Array Value) := []

/-- Notes what the arrays hold.  The first call sets the first input, and the next one the second
one. -/
def Archive.hear (archive : Archive) (news olds : Array Value) : Archive :=
  ⟨true, archive.first, (news, olds) :: archive.told⟩

/-- A host whose listener notes what the arrays hold. -/
def archivist : Host Archivist Archive where
  library := ⟨fun _ _ _ => .endless, fun _ _ => .endless⟩
  report := fun _ host => host
  procedure
    | .first, _ => return .bool (← Program.look (·.store.host)).first
    | .second, _ => return .bool (← Program.look (·.store.host)).second
    | .listen, .changed _ ⟨.array news, .array olds⟩ => do
      let heap ← Program.look (·.store.heap)
      Program.compute (Compute.change fun store =>
        { store with host := store.host.hear (heap.items news) (heap.items olds) })
      return .undefined
    | .listen, _ => return .undefined

/-- Watches both inputs as a group. -/
def archivistSetup : Program Archivist Archive Registration :=
  Program.request (.watchGroup rootId [.first, .second] .listen)

/-- The tree that the host begins with. -/
def archivistPlant : Tree Archivist Archive := .plant ⟨.empty, {}⟩ ⟨.empty, .empty⟩ {} false

/-- The third call is told that the second input was set, and beside it once more what the first
input was before the second call, and not what the second call was told of it. -/
theorem archivist_told_of_bygone : ∃ t, archivist.run 9 archivistSetup archivistPlant =
      some (.ok (.group [0, 1]), t) ∧
    ∃ u, archivist.run 9 (.request (.digest rootId)) t = some (.ok (), u) ∧
      u.store.host.told =
        [(#[.bool true, .bool true], #[.bool false, .bool false]),
          (#[.bool true, .bool false], #[.bool false, .bool false]),
          (#[.bool false, .bool false], #[.bool false, .bool false])] := by
  generalize hx : archivist.run 9 archivistSetup _ = x
  cbv at hx
  subst hx
  refine ⟨_, rfl, ?_⟩
  generalize hy : archivist.run 9 _ _ = y
  cbv at hy
  subst hy
  exact ⟨_, rfl, rfl⟩

/-- The tree with the group: what its arrays hold, and what its members have recorded. -/
def archivistTree (archive : Archive) (news olds : Array Value) (group : Group Archivist)
    (first second : Option Value) : Tree Archivist Archive :=
  { archivistPlant with
    store := ⟨⟨#[news, olds], #[⟨.empty, none⟩], #[]⟩, archive⟩
    scopes := #[{ data := 0, parent := none, isolated := false, watchers := [1, 0] }]
    watchers := #[
      ⟨rootId, .member .first 0 0, false, true, first.map .leaf⟩,
      ⟨rootId, .member .second 0 1, false, true, second.map .leaf⟩]
    groups := #[group] }

/-- The tree in the first pass of a digest. -/
def archivistPass : Tree Archivist Archive :=
  (archivistTree {} #[.undefined, .undefined] #[.undefined, .undefined] ⟨.listen, 0, 1, true, false⟩
    none none).begun.note (.pass rootId)

/-- A check begins, and the procedure that computes the input is called. -/
def archivistGlance (t : Tree Archivist Archive) (w : WatcherId) (input : Archivist) :
    Tree Archivist Archive :=
  (t.note (.checked w)).note (.called input (.watch rootId))

/-- The tree after the visit of the second input. -/
def archivistQueued : Tree Archivist Archive :=
  { archivistTree {} #[.undefined, .bool false] #[.undefined, .bool false]
      ⟨.listen, 0, 1, true, true⟩ none (some (.bool false)) with
    phase := some .digest
    lastDirty := some 1
    queues := { async := [⟨0, rootId, .group 0⟩], next := 1 }
    journal := .queued .async 0 :: (archivistGlance archivistPass 1 .second).journal }

/-- The tree after the visit of the first input too. -/
def archivistLooked : Tree Archivist Archive :=
  { archivistTree {} #[.bool false, .bool false] #[.bool false, .bool false]
      ⟨.listen, 0, 1, true, true⟩ (some (.bool false)) (some (.bool false)) with
    phase := some .digest
    lastDirty := some 0
    queues := { async := [⟨0, rootId, .group 0⟩], next := 1 }
    journal := (archivistGlance archivistQueued 0 .first).journal }

/-- The tree after the first call. -/
def archivistCalled : Tree Archivist Archive :=
  { archivistTree (Archive.hear {} #[.bool false, .bool false] #[.bool false, .bool false])
      #[.bool false, .bool false] #[.bool false, .bool false]
      ⟨.listen, 0, 1, false, false⟩ (some (.bool false)) (some (.bool false)) with
    phase := some .digest
    lastDirty := some 0
    queues := { next := 1 }
    journal := .called .listen (.changed rootId ⟨.array 0, .array 0⟩) :: .started .async 0 ::
      archivistLooked.journal }

lemma archivist_visits_second : runOn ((archivist.engine 9).visitWatcher 1) archivistPass =
    some (.ok { dirty := true }, archivistQueued) := rfl

lemma archivist_visits_first : runOn ((archivist.engine 9).visitWatcher 0) archivistQueued =
    some (.ok { dirty := true }, archivistLooked) := rfl

/-- The tree after the second input was looked at once more. -/
def archivistRelooked : Tree Archivist Archive :=
  archivistGlance (archivistCalled.note (.pass rootId)) 1 .second

/-- The tree after the visit of the first input, which the first call has set. -/
def archivistRequeued : Tree Archivist Archive :=
  { archivistTree archivistCalled.store.host #[.bool true, .bool false] #[.bool false, .bool false]
      ⟨.listen, 0, 1, false, true⟩ (some (.bool true)) (some (.bool false)) with
    phase := some .digest
    lastDirty := some 0
    queues := { async := [⟨1, rootId, .group 0⟩], next := 2 }
    journal := .queued .async 1 :: (archivistGlance archivistRelooked 0 .first).journal }

/-- The tree after the second call. -/
def archivistRecalled : Tree Archivist Archive :=
  { archivistTree
      (archivistCalled.store.host.hear #[.bool true, .bool false] #[.bool false, .bool false])
      #[.bool true, .bool false] #[.bool false, .bool false]
      ⟨.listen, 0, 1, false, false⟩ (some (.bool true)) (some (.bool false)) with
    phase := some .digest
    lastDirty := some 0
    queues := { next := 2 }
    journal := .called .listen (.changed rootId ⟨.array 0, .array 1⟩) :: .started .async 1 ::
      archivistRequeued.journal }

lemma archivist_revisits_second : runOn ((archivist.engine 9).visitWatcher 1)
    (archivistCalled.note (.pass rootId)) = some (.ok {}, archivistRelooked) := rfl

lemma archivist_revisits_first : runOn ((archivist.engine 9).visitWatcher 0) archivistRelooked =
    some (.ok { dirty := true }, archivistRequeued) := rfl

lemma archivist_spares_glance {t : Tree Archivist Archive} {w : WatcherId} {input : Archivist} :
    t.Spares 0 (archivistGlance t w input) := .of_eq rfl rfl (fun _ => rfl) rfl

lemma archivist_probes_second : (archivist.engine 9).Probes 0 1 archivistPass
    (.probe 1 ⟨archivistPass.store.heap, archivistPass.store.heap⟩ (some (.bool false))
      (some ⟨.bool false, .bool false⟩)) archivistQueued :=
  .handed (v := archivistGlance archivistPass 1 .second)
    ⟨⟨_, .second, rfl, rfl, rfl, rfl⟩, archivist_spares_glance⟩ rfl rfl

lemma archivist_probes_first : (archivist.engine 9).Probes 0 0 archivistQueued
    (.probe 0 ⟨archivistQueued.store.heap, archivistQueued.store.heap⟩ (some (.bool false))
      (some ⟨.bool false, .bool false⟩)) archivistLooked :=
  .handed (v := archivistGlance archivistQueued 0 .first)
    ⟨⟨_, .first, rfl, rfl, rfl, rfl⟩, archivist_spares_glance⟩ rfl rfl

lemma archivist_probes_same : (archivist.engine 9).Probes 0 1 (archivistCalled.note (.pass rootId))
    (.probe 1 ⟨archivistCalled.store.heap, archivistCalled.store.heap⟩ (some (.bool false)) none)
    archivistRelooked :=
  .same (v := archivistRelooked) ⟨⟨_, .second, rfl, rfl, rfl, rfl⟩, archivist_spares_glance⟩ rfl

lemma archivist_probes_set : (archivist.engine 9).Probes 0 0 archivistRelooked
    (.probe 0 ⟨archivistRelooked.store.heap, archivistRelooked.store.heap⟩ (some (.bool true))
      (some ⟨.bool true, .bool false⟩)) archivistRequeued :=
  .handed (v := archivistGlance archivistRelooked 0 .first)
    ⟨⟨_, .first, rfl, rfl, rfl, rfl⟩, archivist_spares_glance⟩ rfl rfl

/-- The tree when the listener is called. -/
def archivistTold (t : Tree Archivist Archive) (n : ℕ) : Tree Archivist Archive :=
  ({ t with queues := { next := n + 1 } }.note (.started .async n)).modifyGroup 0
    ({ · with firstRun := false })

lemma archivist_calls : runOn ((archivist.engine 9).contained
      ((archivist.engine 9).perform rootId (.group 0)))
    ({ archivistLooked with queues := { next := 1 } }.note (.started .async 0)) =
      some (.ok (), archivistCalled) := rfl

lemma archivist_calls_again : runOn ((archivist.engine 9).contained
      ((archivist.engine 9).perform rootId (.group 0)))
    ({ archivistRequeued with queues := { next := 2 } }.note (.started .async 1)) =
      some (.ok (), archivistRecalled) := rfl

lemma archivist_rings : (archivist.engine 9).Rings 0 archivistLooked
    (.call ⟨.array 0, .array 0⟩ ⟨archivistLooked.store.heap, archivistCalled.store.heap⟩)
    archivistCalled :=
  .intro (x := archivistTold archivistLooked 0) rfl rfl rfl rfl
    (y := archivistCalled.modifyGroup 0 ({ · with scheduled := true })) rfl
    (.of_eq rfl rfl (fun _ => rfl) rfl) (.inl ⟨rfl, rfl⟩) (refl_of (Spares 0) _)

lemma archivist_rings_again : (archivist.engine 9).Rings 0 archivistRequeued
    (.call ⟨.array 0, .array 1⟩ ⟨archivistRequeued.store.heap, archivistRecalled.store.heap⟩)
    archivistRecalled :=
  .intro (x := archivistTold archivistRequeued 1) rfl rfl rfl rfl
    (y := archivistRecalled.modifyGroup 0 ({ · with scheduled := true })) rfl
    (.of_eq rfl rfl (fun _ => rfl) rfl) (.inl ⟨rfl, rfl⟩) (refl_of (Spares 0) _)

/-- Both inputs are looked at and the listener is called. -/
def archivistBefore : List (List Turn) :=
  [[], [.aside ⟨archivistPass.store.heap, archivistPass.store.heap⟩],
    [.probe 1 ⟨archivistPass.store.heap, archivistPass.store.heap⟩ (some (.bool false))
      (some ⟨.bool false, .bool false⟩),
    .probe 0 ⟨archivistQueued.store.heap, archivistQueued.store.heap⟩ (some (.bool false))
      (some ⟨.bool false, .bool false⟩)]]

/-- Both inputs are looked at again, and the first one is found changed. -/
def archivistSince : List Turn :=
  [.probe 1 ⟨archivistCalled.store.heap, archivistCalled.store.heap⟩ (some (.bool false)) none,
    .probe 0 ⟨archivistRelooked.store.heap, archivistRelooked.store.heap⟩ (some (.bool true))
      (some ⟨.bool true, .bool false⟩)]

/-- What there is for the group until the second call. -/
lemma archivist_career : archivist.Career 0
    (archivistBefore ++
      [[.call ⟨.array 0, .array 0⟩ ⟨archivistLooked.store.heap, archivistCalled.store.heap⟩],
        archivistSince,
        [.call ⟨.array 0, .array 1⟩ ⟨archivistRequeued.store.heap, archivistRecalled.store.heap⟩]])
    archivistRecalled := by
  have hlacks : archivistPlant.Lacks 0 :=
    ⟨Array.getElem?_empty, fun _ => nofun, fun q => by cases q <;> rfl⟩
  have hdebut : archivist.Debut 0 []
      (archivistPlant.formGroup rootId [.first, .second] .listen).2 :=
    .intro rootId [.first, .second] .listen rfl hlacks (.none _)
  have hbegun := (Host.Muster.none (H := archivist) (g := 0) _).aside
    (t := (archivistPlant.formGroup rootId [.first, .second] .listen).2)
    (v := (archivistTree {} #[.undefined, .undefined] #[.undefined, .undefined]
      ⟨.listen, 0, 1, true, false⟩ none none).begun) (.of_eq rfl rfl (fun _ => rfl) rfl)
  have hlooked := ((Host.Turns.none (H := archivist) (g := 0) archivistPass).probe rfl
    archivist_visits_second archivist_probes_second).probe rfl archivist_visits_first
    archivist_probes_first
  have hcalled := (hbegun.pass rootId rfl rfl hlooked).call rfl rfl archivist_calls archivist_rings
  have hrelooked := ((Host.Turns.none (H := archivist) (g := 0)
    (archivistCalled.note (.pass rootId))).probe rfl archivist_revisits_second
    archivist_probes_same).probe rfl archivist_revisits_first archivist_probes_set
  have hrecalled := (hcalled.pass rootId rfl rfl hrelooked).call rfl rfl archivist_calls_again
    archivist_rings_again
  exact .intro hdebut hrecalled

lemma archivist_run : ∃ t, archivist.run 9 archivistSetup archivistPlant =
      some (.ok (.group [0, 1]), t) ∧ t.groups[0]?.isSome = true := by
  generalize hx : archivist.run 9 archivistSetup _ = x
  cbv at hx
  subst hx
  exact ⟨_, rfl, rfl⟩

/-- The second call is told that the first input has changed from what the first call was told, and
of the second input as that call was. -/
theorem archivist_told_of_change : ∃ es t, archivist.Career 0 es t ∧
    (∃ value, (archivistRequeued.store.heap.items 0)[0]? = some value ∧
      (Value.bool true).same value = true) ∧
    (archivistRequeued.store.heap.items 1)[0]? = (archivistLooked.store.heap.items 0)[0]? ∧
    ∀ a ∈ [0, 1],
      (archivistRequeued.store.heap.items a)[1]? = (archivistLooked.store.heap.items a)[1]? := by
  obtain ⟨t, hsetup, hgroup⟩ := archivist_run
  obtain ⟨hruns, hcareers⟩ :=
    archivist.group_told_of_last_changes 0 ⟨.empty, {}⟩ ⟨.empty, .empty⟩ {} false
  obtain hlacks | ⟨es, hcareer⟩ := hruns _ _ _ _ hsetup
  · rw [hlacks.group] at hgroup
    cases hgroup
  obtain ⟨-, hcalls⟩ := hcareers _ _ ⟨.listen, 0, 1, false, false⟩ archivist_career rfl
  obtain ⟨-, -, hcontents⟩ := hcalls
    (archivistBefore.flatten ++ .call ⟨.array 0, .array 0⟩
      ⟨archivistLooked.store.heap, archivistCalled.store.heap⟩ :: archivistSince) _ _ [] rfl
  obtain ⟨hfound, hnow, hbetween⟩ := hcontents (by
    intro turn hturn
    simp only [archivistBefore, archivistSince, List.flatten_cons, List.flatten_nil, List.mem_cons,
      List.mem_append, List.not_mem_nil, or_false, false_or] at hturn
    rcases hturn with (rfl | rfl | rfl) | rfl | rfl | rfl <;> exact ⟨rfl, rfl⟩)
  obtain ⟨cs, c, hcs, hsame⟩ := hfound 0 (.bool true) rfl
  obtain ⟨hnew, -⟩ := hnow 0 cs c hcs
  have hfirst := (hbetween _ _ _ _ rfl 0 nofun).2 ⟨.bool true, .bool false⟩ rfl
  have hsecond := (hbetween _ _ _ _ rfl 1 nofun).1 rfl
  exact ⟨es, t, hcareer, ⟨_, hnew, hsame⟩, hfirst, hsecond⟩

end DataBinding
