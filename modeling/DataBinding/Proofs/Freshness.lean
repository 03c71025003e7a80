import DataBinding.Proofs.DeepEquality

/-!
# Values made since

What is evaluated without names can reach nothing but what its own evaluation has made:
`Heap.MadeSince b h v` says that all that can be reached from `v` is in the heap `h`, and that no
array and no object of it was in the heap `b` already.

Of two values that were made one after the other, a write to the first leaves the second as it is
(`Heap.MadeSince.unchanged_of_write`), and such a write does not reach what was there before either
of them (`Heap.Keeps.of_write`).
-/

namespace DataBinding

open Relation (ReflTransGen)

namespace Heap

variable {b b' h h' k : Heap} {v w base : Value} {key : String}

/-- The array or the object is in the heap. -/
def Owns (h : Heap) : Value → Prop
  | .array a => a < h.arrays.size
  | .object o => o < h.objects.size
  | _ => False

lemma Owns.has (hv : h.Owns v) : h.Has v := by
  cases v with
  | array | object => exact hv
  | _ => cases hv

lemma Owns.of_keeps (hbh : b.Keeps h) (hv : b.Owns v) : h.Owns v := by
  cases v with
  | array => exact hbh.lt_arrays hv
  | object => exact hbh.lt_objects hv
  | _ => cases hv

lemma Owns.setOwn (hv : h.Owns v) (o : ℕ) (key : String) (x : Value) :
    (h.setOwn o key x).Owns v := by
  cases v with
  | array => exact hv
  | object => simpa [Owns, Heap.setOwn, setRecord] using hv
  | _ => cases hv

lemma has_of_isAtom (hv : v.IsAtom) : h.Has v := by
  cases v with
  | array | object => cases hv
  | function f =>
    cases f with
    | intrinsic => trivial
    | made => cases hv
  | _ => trivial

lemma not_owns_of_isAtom (hv : v.IsAtom) : ¬ h.Owns v := by
  cases v with
  | array | object => exact fun _ => hv
  | _ => exact id

/-- All that can be reached from the value is in the heap. -/
def Complete (h : Heap) (v : Value) : Prop := ∀ w, ReflTransGen h.Refers v w → h.Has w

/-- All that can be reached from the value is in the second heap, and no array and no object of it
is in the first one. -/
def MadeSince (b h : Heap) (v : Value) : Prop :=
  ∀ w, ReflTransGen h.Refers v w → h.Has w ∧ ¬ b.Owns w

lemma Complete.unchanged_of_keeps (hv : h.Complete v) (hhk : h.Keeps k) : h.Unchanged k v :=
  fun w hw => hhk.sameAt (hv w hw)

lemma owns_newObject (h : Heap) :
    (h.newObject .empty none).2.Owns (.object (h.newObject .empty none).1) := by
  simp [Owns, Heap.newObject]

lemma record_newObject_self (h : Heap) (record : Record Value) (proto : Option ℕ) :
    (h.newObject record proto).2.record (h.newObject record proto).1 = record := by
  rw [Heap.record, object_newObject_self]

lemma parent?_newObject (h : Heap) (record : Record Value) :
    (h.newObject record none).2.parent? (h.newObject record none).1 = none := by
  rw [parent?, proto, object_newObject_self]
  rfl

namespace MadeSince

lemma complete (hv : b.MadeSince h v) : h.Complete v := fun w hw => (hv w hw).1

lemma has (hv : b.MadeSince h v) : h.Has v := (hv v .refl).1

lemma not_owns (hv : b.MadeSince h v) : ¬ b.Owns v := (hv v .refl).2

lemma of_isAtom (hv : v.IsAtom) : b.MadeSince h v := by
  intro w hw
  obtain rfl := eq_of_reaches_of_isAtom hv hw
  exact ⟨has_of_isAtom hv, not_owns_of_isAtom hv⟩

lemma intro (hhas : h.Has v) (howns : ¬ b.Owns v)
    (hrefers : ∀ w, h.Refers v w → b.MadeSince h w) : b.MadeSince h v := by
  intro w hw
  rcases hw.cases_head with rfl | ⟨u, hu, hw⟩
  · exact ⟨hhas, howns⟩
  · exact hrefers u hu w hw

lemma getMember (hv : b.MadeSince h v) (key : String) : b.MadeSince h (h.getMember v key) := by
  rcases h.reaches_getMember v key with hatom | hreach
  · exact of_isAtom hatom
  · exact fun w hw => hv w (hreach.trans hw)

/-- What was made since some time was made since any earlier time. -/
lemma of_later (hv : b'.MadeSince h v) (hle : ∀ w, b.Owns w → b'.Owns w) : b.MadeSince h v :=
  fun w hw => (hv w hw).imp_right fun hnot hown => hnot (hle w hown)

lemma of_unchanged (hv : b.MadeSince h v) (hunchanged : h.Unchanged k v) : b.MadeSince k v := by
  intro w hw
  have hreach : ReflTransGen h.Refers v w := by
    induction hw with
    | refl => exact .refl
    | tail _ hstep ih => exact ih.tail ((hunchanged _ ih).refers hstep)
  exact ⟨(hunchanged w hreach).symm.has, (hv w hreach).2⟩

lemma of_keeps (hv : b.MadeSince h v) (hhk : h.Keeps k) : b.MadeSince k v :=
  hv.of_unchanged (hv.complete.unchanged_of_keeps hhk)

/-! ## Making containers -/

lemma newArray (hbh : b.Keeps h) {items : Array Value} (hitems : ∀ v ∈ items, b.MadeSince h v) :
    b.MadeSince (h.newArray items).2 (.array (h.newArray items).1) := by
  refine intro ?_ ?_ fun w hw => ?_
  · simp [Has, Heap.newArray]
  · exact fun hown => lt_irrefl _ (hbh.lt_arrays hown)
  · rcases hw with hw | ⟨_, _, harray, -⟩
    · rw [Holds, held, items_newArray_self] at hw
      exact (hitems w (Array.mem_toList_iff.1 hw)).of_keeps (h.keeps_newArray items)
    · cases harray

/-- An object that inherits nothing was made since, if it and what its properties hold were. -/
lemma object {o : ℕ} (hhas : h.Has (.object o)) (hnot : ¬ b.Owns (.object o))
    (hparent : h.parent? o = none) (hheld : ∀ x ∈ (h.record o).entries, b.MadeSince h x.2) :
    b.MadeSince h (.object o) := by
  refine intro hhas hnot ?_
  rintro w (hw | ⟨q, q', hq, hparent', -⟩)
  · obtain ⟨x, hx, rfl⟩ := List.mem_map.1 hw
    exact hheld x hx
  · cases hq
    cases hparent.symm.trans hparent'

lemma newObject (hbh : b.Keeps h) {record : Record Value}
    (hheld : ∀ x ∈ record.entries, b.MadeSince h x.2) :
    b.MadeSince (h.newObject record none).2 (.object (h.newObject record none).1) := by
  refine object ?_ ?_ (parent?_newObject h record) fun x hx => ?_
  · simp [Has, Heap.newObject]
  · exact fun hown => lt_irrefl _ (hbh.lt_objects hown)
  · rw [record_newObject_self] at hx
    exact (hheld x hx).of_keeps (h.keeps_newObject record none)

end MadeSince

/-! ## Writing -/

lemma Keeps.setItems (hbh : b.Keeps h) {a : ℕ} (ha : b.arrays.size ≤ a) (items : Array Value) :
    b.Keeps (h.setItems a items) :=
  { hbh with
    arrays := fun hi => by
      rw [← hbh.arrays hi]
      simp [Heap.setItems, Array.getElem?_setIfInBounds_ne (hi.trans_le ha).ne'] }

/-- A write to what was not there keeps what was there. -/
lemma Keeps.of_write (hbh : b.Keeps h) (hbase : ¬ b.Owns base)
    (hwrite : h.setMember base key v = some (.ok h')) : b.Keeps h' := by
  rcases setMember_cases hwrite with rfl | ⟨a, items, rfl, rfl⟩ | ⟨o, rfl, rfl⟩
  · exact hbh
  · exact hbh.setItems (Nat.le_of_not_lt hbase) items
  · exact hbh.setOwn (Nat.le_of_not_lt hbase) key v

lemma sameAt_self (hv : h.Has v) : h.SameAt h v := (Keeps.refl h).sameAt hv

lemma sameAt_setItems {a : ℕ} (hv : h.Has v) (hne : v ≠ .array a) (items : Array Value) :
    h.SameAt (h.setItems a items) v := by
  have hself := sameAt_self hv
  cases v with
  | array i =>
    have hi : i ≠ a := fun heq => hne (heq ▸ rfl)
    refine hself.imp fun _ hboth => ⟨hboth.1, ?_⟩
    rw [Heap.setItems, Array.getElem?_setIfInBounds_ne hi.symm, hboth.1]
  | function f => cases f <;> exact hself
  | _ => exact hself

lemma sameAt_setRecord {o : ℕ} (hv : h.Has v) (hne : v ≠ .object o) (record : Record Value) :
    h.SameAt (h.setRecord o record) v := by
  have hself := sameAt_self hv
  cases v with
  | object i =>
    have hi : i ≠ o := fun heq => hne (heq ▸ rfl)
    refine hself.imp fun _ hboth => ⟨hboth.1, ?_⟩
    simp only [setRecord, Array.getElem?_modify, hi.symm, if_false, hboth.1]
  | function f => cases f <;> exact hself
  | _ => exact hself

lemma sameAt_setOwn {o : ℕ} (hv : h.Has v) (hne : v ≠ .object o) (key : String) (x : Value) :
    h.SameAt (h.setOwn o key x) v :=
  sameAt_setRecord hv hne _

/-- A write to what was there leaves alone what was made since. -/
lemma MadeSince.unchanged_of_write {x : Value} (hx : b.MadeSince h x) (hbase : b.Has base)
    (hwrite : h.setMember base key v = some (.ok h')) : h.Unchanged h' x := by
  intro w hw
  obtain ⟨hhas, hnot⟩ := hx w hw
  rcases setMember_cases hwrite with rfl | ⟨a, items, rfl, rfl⟩ | ⟨o, rfl, rfl⟩
  · exact sameAt_self hhas
  · exact sameAt_setItems hhas (by rintro rfl; exact hnot hbase) items
  · exact sameAt_setOwn hhas (by rintro rfl; exact hnot hbase) key v

/-! ## Writing to deep-equal values -/

lemma resize_agree {xs ys : Array Value} (hsize : xs.size = ys.size) (n : ℕ) :
    Agree (fun _ _ => True) (resize xs n) (resize ys n) := by
  unfold resize
  rw [hsize]
  split
  · exact .ok trivial
  · split
    · exact .ok trivial
    · exact .error _

lemma writeItem_agree {xs ys : Array Value} (hsize : xs.size = ys.size) (i : ℕ) (v w : Value) :
    Agree (fun _ _ => True) (writeItem xs i v) (writeItem ys i w) := by
  unfold writeItem
  rw [hsize]
  split
  · exact .ok trivial
  · split
    · exact .ok trivial
    · exact .error _

lemma agree_map {α α' β β' : Type} {x : Except Error α} {y : Except Error β}
    (hxy : Agree (fun _ _ => True) x y) (f : α → α') (g : β → β') :
    Agree (fun _ _ => True) (x.map f) (y.map g) := by
  cases hxy with
  | ok => exact .ok trivial
  | error e => exact .error e

/-- Writes of deep-equal values to deep-equal values succeed or fail alike. -/
lemma DeepEqual.setMember {base' : Value} (hbase : h.DeepEqual k base base')
    (hvw : h.DeepEqual k v w) (key : String) : ∃ x y, h.setMember base key v = some x ∧
      k.setMember base' key w = some y ∧ Agree (fun _ _ => True) x y := by
  cases hbase with
  | @plain base hplain =>
    cases base with
    | array | object | function => cases hplain
    | undefined | null => exact ⟨_, _, rfl, rfl, .error _⟩
    | bool | number | string => exact ⟨_, _, rfl, rfl, .ok trivial⟩
  | intrinsic | made | object => exact ⟨_, _, rfl, rfl, .ok trivial⟩
  | @array a b hsize hitems =>
    unfold Heap.setMember
    dsimp only
    split
    · obtain ⟨n, hn⟩ := Option.ne_none_iff_exists'.1
        (mt toNumber_eq_none_iff.1 hvw.not_loops)
      rw [← hvw.toNumber_eq, hn]
      refine ⟨_, _, rfl, rfl, ?_⟩
      dsimp only
      split
      · exact agree_map (resize_agree hsize _) _ _
      · exact .ok trivial
    · split
      · exact ⟨_, _, rfl, rfl, agree_map (writeItem_agree hsize _ _ _) _ _⟩
      · exact ⟨_, _, rfl, rfl, .ok trivial⟩

end Heap

end DataBinding
