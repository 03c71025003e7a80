import DataBinding.Proofs.Conversions
import DataBinding.Proofs.Indices
import DataBinding.Proofs.Magnitudes
import DataBinding.Proofs.Steps

/-!
# Writes to arrays

How far one write may lengthen an array, and what it leaves of the elements
(`Heap.bounded_writes`).  An array that a write would make more than `maxGrowth` elements longer is
refused and left alone (`Bounded`).  Any other write of an element makes the array just long enough
for it (`Written`), and any other write of the length keeps the elements that still have a place
(`Resized`).

The arithmetic of the machine is given a result of its own where a sum has no machine integer, a
difference is below zero or an element is missing.  On arrays that fit into memory it never comes to
that, and a refusal is the only thing that the overflow of a sum can lead to
(`writeItemOnMachine?_eq`, `resizeOnMachine?_eq`).
-/

namespace DataBinding

variable {α : Type} {items : Array Value} {v : Value} {i n : ℕ}

/-! ## What writes are to do -/

/-- A write that would make an array of `now` elements one of `wanted` is refused if that is more
than `maxGrowth` elements longer, with what was `asked` for in the error.  Any other is done, and
well. -/
structure Bounded (now wanted asked : ℕ) (Well : α → Prop) (outcome : Except Error α) : Prop where
  refused : now + maxGrowth < wanted → outcome = .error (.evaluation (.growth now asked))
  done : wanted ≤ now + maxGrowth → ∃ new, outcome = .ok new ∧ Well new

/-- The elements after the writing of one: the array is just long enough, the gap before the element
is filled with undefined, and all others stay. -/
structure Written (items written : Array Value) (i : ℕ) (v : Value) : Prop where
  size : written.size = max items.size (i + 1)
  element : written[i]? = some v
  gap : ∀ j, items.size ≤ j → j < i → written[j]? = some .undefined
  others : ∀ j, j < items.size → j ≠ i → written[j]? = items[j]?

/-- The elements after the writing of the length: those that have a place in both stay, and the new
places are filled with undefined. -/
structure Resized (items resized : Array Value) (n : ℕ) : Prop where
  size : resized.size = n
  common : ∀ j, j < items.size → j < n → resized[j]? = items[j]?
  padding : ∀ j, items.size ≤ j → j < n → resized[j]? = some .undefined

lemma Bounded.map {β : Type} {now wanted asked : ℕ} {Well : α → Prop} {Well' : β → Prop}
    {f : α → β} {outcome : Except Error α} (h : Bounded now wanted asked Well outcome)
    (hf : ∀ new, Well new → Well' (f new)) : Bounded now wanted asked Well' (outcome.map f) where
  refused hfar := by
    rw [h.refused hfar]
    rfl
  done hnear := by
    obtain ⟨new, hnew, hwell⟩ := h.done hnear
    exact ⟨f new, by rw [hnew]; rfl, hf new hwell⟩

lemma written_setIfInBounds (hi : i < items.size) (v : Value) :
    Written items (items.setIfInBounds i v) i v where
  size := by
    rw [Array.size_setIfInBounds]
    omega
  element := by rw [Array.getElem?_setIfInBounds_self_of_lt hi]
  gap j hge hlt := by omega
  others j _ hne := Array.getElem?_setIfInBounds_ne hne.symm

lemma written_push (hi : items.size ≤ i) (v : Value) :
    Written items ((items ++ Array.replicate (i - items.size) Value.undefined).push v) i v := by
  have hsize : (items ++ Array.replicate (i - items.size) Value.undefined).size = i := by
    rw [Array.size_append, Array.size_replicate]
    omega
  constructor
  case size =>
    rw [Array.size_push, hsize]
    omega
  case element => rw [Array.getElem?_push, hsize, if_pos rfl]
  case gap =>
    intro j hge hlt
    rw [Array.getElem?_push, hsize, if_neg hlt.ne, Array.getElem?_append_right hge,
      Array.getElem?_replicate, if_pos (by omega)]
  case others =>
    intro j hlt hne
    rw [Array.getElem?_push, hsize, if_neg hne, Array.getElem?_append_left hlt]

lemma resized_extract (hn : n ≤ items.size) : Resized items (items.extract 0 n) n where
  size := by
    rw [Array.size_extract]
    omega
  common j _ hlt := by
    rw [Array.getElem?_extract, if_pos (by omega), Nat.zero_add]
  padding j hge hlt := by omega

lemma resized_append (hn : items.size ≤ n) :
    Resized items (items ++ Array.replicate (n - items.size) Value.undefined) n where
  size := by
    rw [Array.size_append, Array.size_replicate]
    omega
  common j hlt _ := Array.getElem?_append_left hlt
  padding j hge hlt := by
    rw [Array.getElem?_append_right hge, Array.getElem?_replicate, if_pos (by omega)]

/-- The elements after the writing of one are determined. -/
lemma Written.unique {written written' : Array Value} (h : Written items written i v)
    (h' : Written items written' i v) : written = written' := by
  refine Array.ext_getElem? fun j => ?_
  by_cases hj : j < written.size
  · obtain rfl | hne := eq_or_ne j i
    · rw [h.element, h'.element]
    · by_cases hlt : j < items.size
      · rw [h.others j hlt hne, h'.others j hlt hne]
      · have hsize := h.size
        rw [h.gap j (by omega) (by omega), h'.gap j (by omega) (by omega)]
  · rw [Array.getElem?_eq_none (by omega),
      Array.getElem?_eq_none (by have := h.size; have := h'.size; omega)]

/-- An element may also be written once there is a place for it. -/
lemma Resized.written {resized : Array Value} (h : Resized items resized (i + 1))
    (hi : items.size ≤ i) (v : Value) : Written items (resized.setIfInBounds i v) i v := by
  have hsize := h.size
  constructor
  case size =>
    rw [Array.size_setIfInBounds]
    omega
  case element => rw [Array.getElem?_setIfInBounds_self_of_lt (by omega)]
  case gap =>
    intro j hge hlt
    rw [Array.getElem?_setIfInBounds_ne hlt.ne', h.padding j hge (by omega)]
  case others =>
    intro j hlt hne
    rw [Array.getElem?_setIfInBounds_ne hne.symm, h.common j hlt (by omega)]

lemma bounded_writeItem (items : Array Value) (i : ℕ) (v : Value) :
    Bounded items.size (i + 1) i (Written items · i v) (writeItem items i v) where
  refused hfar := by
    rw [writeItem, if_neg (by omega), if_neg (by omega)]
  done hnear := by
    by_cases hi : i < items.size
    · exact ⟨_, by rw [writeItem, if_pos hi], written_setIfInBounds hi v⟩
    · exact ⟨_, by rw [writeItem, if_neg hi, if_pos (by omega)], written_push (by omega) v⟩

lemma bounded_resize (items : Array Value) (n : ℕ) :
    Bounded items.size n n (Resized items · n) (resize items n) where
  refused hfar := by
    rw [resize, if_neg (by omega), if_neg (by omega)]
  done hnear := by
    by_cases hn : n ≤ items.size
    · exact ⟨_, by rw [resize, if_pos hn], resized_extract hn⟩
    · exact ⟨_, by rw [resize, if_neg hn, if_pos (by omega)], resized_append (by omega)⟩

/-! ## The arithmetic of the machine -/

/-- No array has more elements, for each takes up memory. -/
def maxExtent : ℕ := 2 ^ 63 - 1

lemma maxExtent_add_maxGrowth_lt : maxExtent + maxGrowth < machineBound - 1 := by
  decide

/-- The sum, if it is a machine integer. -/
def machineAdd? (m n : ℕ) : Option ℕ := if m + n < machineBound then some (m + n) else none

/-- The difference, if it is not below zero. -/
def machineSub? (m n : ℕ) : Option ℕ := if n ≤ m then some (m - n) else none

/-- Overwrites an element, if it is there. -/
def overwrite? (items : Array Value) (i : ℕ) (v : Value) : Option (Array Value) :=
  if hi : i < items.size then some (items.set i v hi) else none

/-- Cuts the elements or fills them up. -/
def fit (items : Array Value) (n : ℕ) : Array Value :=
  items.extract 0 n ++ Array.replicate (n - items.size) .undefined

/-- Makes an array longer, unless it would be too long.  There is no outcome if the length wanted is
below that of the array. -/
def lengthen? (items : Array Value) (wanted asked : ℕ) : Option (Except Error (Array Value)) :=
  (machineSub? wanted items.size).map fun growth =>
    if maxGrowth < growth then .error (.evaluation (.growth items.size asked))
    else .ok (fit items wanted)

/-- The writing of an element as the machine does it.  A sum that overflows is refused. -/
def writeItemOnMachine? (items : Array Value) (i : ℕ) (v : Value) :
    Option (Except Error (Array Value)) := do
  let longEnough ←
    if i < items.size then some (.ok items)
    else
      match machineAdd? i 1 with
      | some wanted => lengthen? items wanted i
      | none => some (.error (.evaluation (.growth items.size i)))
  match longEnough with
  | .ok items => (overwrite? items i v).map .ok
  | .error e => some (.error e)

/-- The writing of the length as the machine does it. -/
def resizeOnMachine? (items : Array Value) (n : ℕ) : Option (Except Error (Array Value)) :=
  if items.size < n then lengthen? items n n else some (.ok (fit items n))

lemma overwrite?_eq (hi : i < items.size) (v : Value) :
    overwrite? items i v = some (items.setIfInBounds i v) := by
  rw [overwrite?, dif_pos hi, Array.setIfInBounds, dif_pos hi]

lemma fit_of_le (hn : n ≤ items.size) : fit items n = items.extract 0 n := by
  rw [fit, Nat.sub_eq_zero_of_le hn, Array.replicate_zero, Array.append_empty]

lemma fit_of_ge (hn : items.size ≤ n) :
    fit items n = items ++ Array.replicate (n - items.size) .undefined := by
  rw [fit, Array.extract_eq_self_of_le hn]

lemma lengthen?_eq {asked : ℕ} (hn : items.size ≤ n) : lengthen? items n asked =
    some (if n - items.size ≤ maxGrowth then
      .ok (items ++ Array.replicate (n - items.size) .undefined)
    else .error (.evaluation (.growth items.size asked))) := by
  rw [lengthen?, machineSub?, if_pos hn, Option.map_some, fit_of_ge hn]
  split_ifs <;> first | rfl | omega

/-- To write an element the machine never takes a difference below zero and never misses the
element. -/
lemma writeItemOnMachine?_eq (hsize : items.size ≤ maxExtent) (v : Value) :
    writeItemOnMachine? items i v = some (writeItem items i v) := by
  rw [writeItemOnMachine?, writeItem]
  by_cases hlt : i < items.size
  · rw [if_pos hlt, if_pos hlt, Option.bind_eq_bind, Option.bind_some]
    dsimp only
    rw [overwrite?_eq hlt, Option.map_some]
  · have hge : items.size ≤ i + 1 := by omega
    rw [if_neg hlt, if_neg hlt]
    by_cases hadd : i + 1 < machineBound
    · rw [machineAdd?, if_pos hadd]
      dsimp only
      rw [lengthen?_eq hge, Option.bind_eq_bind, Option.bind_some]
      by_cases hgrowth : i + 1 - items.size ≤ maxGrowth
      · have hresized := resized_append hge
        rw [if_pos hgrowth, if_pos hgrowth]
        dsimp only
        rw [overwrite?_eq (by rw [hresized.size]; omega), Option.map_some,
          (hresized.written (not_lt.1 hlt) v).unique (written_push (not_lt.1 hlt) v)]
      · rw [if_neg hgrowth, if_neg hgrowth]
    · -- the greatest machine integer is out of reach
      have hfar := maxExtent_add_maxGrowth_lt
      rw [machineAdd?, if_neg hadd, if_neg (by omega)]
      rfl

lemma resizeOnMachine?_eq (items : Array Value) (n : ℕ) :
    resizeOnMachine? items n = some (resize items n) := by
  rw [resizeOnMachine?, resize]
  by_cases hn : n ≤ items.size
  · rw [if_neg hn.not_gt, if_pos hn, fit_of_le hn]
  · rw [if_pos (not_le.1 hn), if_neg hn, lengthen?_eq (not_le.1 hn).le]

/-! ## Members -/

namespace Heap

variable {h h' : Heap} {a : ℕ} {key : String}

/-- The heaps differ in the elements of one array at most. -/
structure SameBut (a : ℕ) (h h' : Heap) : Prop where
  arrayCount : h'.arrays.size = h.arrays.size
  items : ∀ b, b ≠ a → h'.items b = h.items b
  objects : h'.objects = h.objects
  closures : h'.closures = h.closures

lemma sameBut_setItems (h : Heap) (a : ℕ) (items : Array Value) :
    SameBut a h (h.setItems a items) where
  arrayCount := Array.size_setIfInBounds
  items _ hb := h.items_setItems_of_ne hb items
  objects := rfl
  closures := rfl

/-- What writes to an array do.  Its elements and its length are written within bounds, by the
arithmetic of the machine as without; a key that denotes an index writes the element and a count the
length, of this array and no other; and all else that may be written changes nothing, as does a
write that is refused.  Only the conversion of a length to a number can have no end. -/
structure BoundedWrites (h : Heap) (a : ℕ) : Prop where
  element : ∀ i v, writeItemOnMachine? (h.items a) i v = some (writeItem (h.items a) i v) ∧
    Bounded (h.items a).size (i + 1) i (Written (h.items a) · i v) (writeItem (h.items a) i v)
  extent : ∀ n, resizeOnMachine? (h.items a) n = some (resize (h.items a) n) ∧
    Bounded (h.items a).size n n (Resized (h.items a) · n) (resize (h.items a) n)
  index : ∀ key i v, IndexText key i → ∃ outcome, h.setMember (.array a) key v = some outcome ∧
    Bounded (h.items a).size (i + 1) i
      (fun h' => Written (h.items a) (h'.items a) i v ∧ SameBut a h h') outcome
  otherKey : ∀ key v, key ≠ "length" → (∀ i, ¬ IndexText key i) →
    h.setMember (.array a) key v = some (.ok h)
  length : ∀ v x (n : ℕ), h.toNumber v = some x → Number.IsInteger x n →
    ∃ outcome, h.setMember (.array a) "length" v = some outcome ∧
      Bounded (h.items a).size n (min n (machineBound - 1))
        (fun h' => Resized (h.items a) (h'.items a) n ∧ SameBut a h h') outcome
  otherLength : ∀ v x, h.toNumber v = some x → (∀ n : ℕ, ¬ Number.IsInteger x n) →
    h.setMember (.array a) "length" v = some (.ok h)
  endless : ∀ key v, h.setMember (.array a) key v = none ↔ key = "length" ∧ h.toNumber v = none
  refused : ∀ {σ} (s t : Store σ) key v e, Compute.runOn
    (Store.changingIf (·.setMember (.array a) key v)) s = some (.error e, t) → t = s

lemma setMember_of_indexText {i : ℕ} (hkey : IndexText key i) (v : Value) :
    h.setMember (.array a) key v = some ((writeItem (h.items a) i v).map (h.setItems a ·)) := by
  have hne : key ≠ "length" := by
    rintro rfl
    have hnone : indexOfKey? "length" = none := by decide
    cases hnone.symm.trans hkey.indexOfKey?_eq
  rw [setMember, if_neg hne, hkey.indexOfKey?_eq]

lemma setMember_length {x : Float} (hx : h.toNumber v = some x) :
    h.setMember (.array a) "length" v = some
      ((Number.toCount? x).elim (.ok h) fun n =>
        (resize (h.items a) (min n (machineBound - 1))).map (h.setItems a ·)) := by
  rw [setMember, if_pos rfl, hx, Option.map_some]
  cases Number.toCount? x <;> rfl

/-- A length beyond the machine integers is cut to the greatest of them, and refused all the
same. -/
lemma bounded_resize_min (hsize : items.size ≤ maxExtent) (n : ℕ) :
    Bounded items.size n (min n (machineBound - 1)) (Resized items · n)
      (resize items (min n (machineBound - 1))) := by
  have hlimit := maxExtent_add_maxGrowth_lt
  have hbounded := bounded_resize items (min n (machineBound - 1))
  exact
    { refused := fun hfar => hbounded.refused (by omega)
      done := fun hnear => by
        rw [min_eq_left (by omega)] at hbounded ⊢
        exact hbounded.done hnear }

lemma unchanged_of_changingIf_error {σ : Type} {f : Heap → Option (Except Error Heap)}
    {s t : Store σ} {e : Error}
    (hrun : Compute.runOn (Store.changingIf f) s = some (.error e, t)) : t = s := by
  rw [Store.runOn_changingIf, Option.map_eq_some_iff] at hrun
  obtain ⟨_ | _, -, hend⟩ := hrun
  · cases hend
    rfl
  · cases hend

/-- Writes to an array that is there and fits into memory are bounded, and change nothing unless
they are done. -/
theorem bounded_writes (ha : a < h.arrays.size) (hsize : (h.items a).size ≤ maxExtent) :
    h.BoundedWrites a := by
  have hset : ∀ items, (h.setItems a items).items a = items := h.items_setItems_self ha
  constructor
  case element => exact fun i v => ⟨writeItemOnMachine?_eq hsize v, bounded_writeItem _ i v⟩
  case extent => exact fun n => ⟨resizeOnMachine?_eq _ n, bounded_resize _ n⟩
  case index =>
    refine fun key i v hkey => ⟨_, setMember_of_indexText hkey v, ?_⟩
    refine (bounded_writeItem _ i v).map fun items hwritten => ⟨?_, h.sameBut_setItems a items⟩
    rwa [hset]
  case otherKey =>
    intro key v hkey hnot
    rw [setMember, if_neg hkey, Option.eq_none_iff_forall_not_mem.2 fun i hi =>
      hnot i (indexOfKey?_eq_some_iff.1 hi)]
  case length =>
    refine fun v x n hx hn => ⟨_, setMember_length hx, ?_⟩
    rw [Number.toCount?_eq_some_iff.2 hn, Option.elim_some]
    refine (bounded_resize_min hsize n).map fun items hresized =>
      ⟨?_, h.sameBut_setItems a items⟩
    rwa [hset]
  case otherLength =>
    intro v x hx hnot
    rw [setMember_length hx, Option.eq_none_iff_forall_not_mem.2 fun n hn =>
      hnot n (Number.toCount?_eq_some_iff.1 hn)]
    rfl
  case endless =>
    intro key v
    rw [setMember_eq_none_iff, ← toNumber_eq_none_iff, and_iff_right ⟨a, rfl⟩]
  case refused => exact fun s t key v e => unchanged_of_changingIf_error

/-- An array with one element can be written `maxGrowth` elements further, and no more. -/
theorem pebble_bounded_writes : 0 < pebble.arrays.size ∧ (pebble.items 0).size ≤ maxExtent ∧
    (∃ h, pebble.setMember (.array 0) "65536" .null = some (.ok h) ∧
      Written (pebble.items 0) (h.items 0) 65536 .null) ∧
    pebble.setMember (.array 0) "65537" .null = some (.error (.evaluation (.growth 1 65537))) := by
  have hthere : 0 < pebble.arrays.size := by decide
  have hfits : (pebble.items 0).size ≤ maxExtent := by decide
  have hwrites := bounded_writes hthere hfits
  refine ⟨hthere, hfits, ?_, ?_⟩
  · obtain ⟨outcome, houtcome, hbounded⟩ :=
      hwrites.index "65536" 65536 .null (indexOfKey?_eq_some_iff.1 (by decide))
    obtain ⟨h, rfl, hwritten, -⟩ := hbounded.done (by decide)
    exact ⟨h, houtcome, hwritten⟩
  · obtain ⟨outcome, houtcome, hbounded⟩ :=
      hwrites.index "65537" 65537 .null (indexOfKey?_eq_some_iff.1 (by decide))
    rw [houtcome, hbounded.refused (by decide)]
    rfl

end Heap

end DataBinding
