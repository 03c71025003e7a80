import DataBinding.Proofs.Equalities
import DataBinding.Proofs.Exactness
import DataBinding.Proofs.SortedMembers
import DataBinding.Proofs.Veils

/-!
# Values and documents

Nothing is lost between values and JSON documents (`Heap.RoundTrips`).  What is built of the view of
a value has the same contents as the value, as far as contents are compared: two objects with the
same properties in another order, and the two zeros, pass for equal.  The view of what is built of a
document is the document itself, if its numbers are small integers or have a fraction
(`Json.Exact`); a large integer that was stored as a double stays one, but a small one does not.

A view goes all the way down and sees what freezing sees (`Heap.toJson?_eq`), so it comes to an end
for any value that does not contain itself.  What is built of a part of a document stays as it was
while the rest is built (`Json.Built`), which carries both inductions.
-/

namespace DataBinding

open Relation (ReflTransGen TransGen)

/-! ## The view of a value -/

/-- The view of a value that is no container. -/
def Json.ofPlain : Value → Json
  | .bool b => .bool b
  | .number x => .ofNumber x
  | .string s => .string s
  | _ => .null

namespace Frozen

mutual

/-- The view of a frozen value. -/
def json : Frozen → Json
  | .leaf v => .ofPlain v
  | .array items => .array (jsonItems items)
  | .object entries => .object (Json.sortMembers (jsonEntries entries))

/-- The views of elements. -/
def jsonItems : List Frozen → List Json
  | [] => []
  | f :: items => json f :: jsonItems items

/-- The views of properties. -/
def jsonEntries : List (String × Frozen) → List (String × Json)
  | [] => []
  | (key, f) :: entries => (key, json f) :: jsonEntries entries

end

variable {freeze : Value → Option Frozen} {view : Value → Option Json}

lemma mapM_view_items (hview : ∀ v, view v = (freeze v).map json) (values : List Value) :
    values.mapM view = (values.mapM freeze).map jsonItems := by
  induction values with
  | nil => rfl
  | cons v values ih =>
    rw [List.mapM_cons, List.mapM_cons, hview, ih]
    cases freeze v <;> cases values.mapM freeze <;> rfl

lemma mapM_view_entries (hview : ∀ v, view v = (freeze v).map json)
    (entries : List (String × Value)) :
    entries.mapM (fun x => do return (x.1, ← view x.2)) =
      (entries.mapM fun x : String × Value => do return (x.1, ← freeze x.2)).map jsonEntries := by
  induction entries with
  | nil => rfl
  | cons x entries ih =>
    rw [List.mapM_cons, List.mapM_cons, hview, ih]
    cases freeze x.2 <;>
      cases entries.mapM (fun x : String × Value => do return (x.1, ← freeze x.2)) <;> rfl

end Frozen

namespace Heap

variable {h k : Heap} {v w : Value} {n : ℕ} {j : Json}

/-- The view of a value is that of its frozen form. -/
lemma toJsonWithin_eq (h : Heap) (n : ℕ) (v : Value) :
    h.toJsonWithin n v = (h.freezeWithin n v).map Frozen.json := by
  induction n generalizing v with
  | zero => cases v <;> rfl
  | succ n ih =>
    cases v with
    | array a =>
      rw [toJsonWithin, freezeWithin, Frozen.mapM_view_items ih]
      cases (h.items a).toList.mapM (h.freezeWithin n) <;> rfl
    | object o =>
      have hentries := Frozen.mapM_view_entries ih (h.record o).entries
      rw [toJsonWithin, freezeWithin]
      generalize (h.record o).entries.mapM (fun x => do return (x.1, ← h.freezeWithin n x.2)) = l
        at hentries ⊢
      refine (congrArg (· >>= fun members => pure (Json.object (Json.sortMembers members)))
        hentries).trans ?_
      cases l <;> rfl
    | _ => rfl

lemma toJson?_eq (h : Heap) (v : Value) : h.toJson? v = (h.freeze? v).map Frozen.json :=
  h.toJsonWithin_eq _ v

/-- A value has a view just if it does not contain itself. -/
theorem toJson?_eq_none_iff : h.toJson? v = none ↔ h.Cyclic v := by
  rw [toJson?_eq, Option.map_eq_none_iff, freeze?_eq_none_iff]

/-- The view goes as deep as there are containers, and further down there is no more to see. -/
lemma toJsonWithin_eq_toJson? (hle : h.containerCount + 1 ≤ n) (v : Value) :
    h.toJsonWithin n v = h.toJson? v := by
  rw [toJson?_eq, toJsonWithin_eq, freezeWithin_of_le hle]

lemma toJson?_array (h : Heap) (a : ℕ) :
    h.toJson? (.array a) = ((h.items a).toList.mapM h.toJson?).map .array := by
  rw [← toJsonWithin_eq_toJson? (Nat.le_succ _), toJsonWithin]
  change ((h.items a).toList.mapM h.toJson?).bind _ = _
  cases (h.items a).toList.mapM h.toJson? <;> rfl

lemma toJson?_object (h : Heap) (o : ℕ) : h.toJson? (.object o) =
    ((h.record o).entries.mapM fun x : String × Value => (h.toJson? x.2).map (x.1, ·)).map
      (.object ∘ Json.sortMembers) := by
  rw [← toJsonWithin_eq_toJson? (Nat.le_succ _), toJsonWithin]
  have hentry : (fun x : String × Value => do return (x.1, ← h.toJson? x.2)) =
      fun x => (h.toJson? x.2).map (x.1, ·) := by
    funext x
    cases h.toJson? x.2 <;> rfl
  change ((h.record o).entries.mapM fun x : String × Value => do
    return (x.1, ← h.toJson? x.2)).bind _ = _
  rw [hentry]
  cases (h.record o).entries.mapM fun x : String × Value => (h.toJson? x.2).map (x.1, ·) <;> rfl

end Heap

/-! ## What is built -/

namespace Json

mutual

/-- To build the value of a document changes nothing that was there. -/
lemma keeps_toValue (h : Heap) (j : Json) : h.Keeps (j.toValue h).2 := by
  cases j with
  | null | bool | integer | double | string => exact .refl h
  | array items => exact (keeps_toValues h items).trans (Heap.keeps_newArray _ _)
  | object members => exact (keeps_toEntries h members).trans (Heap.keeps_newObject _ _ _)

lemma keeps_toValues (h : Heap) (items : List Json) : h.Keeps (toValues h items).2 := by
  cases items with
  | nil => exact .refl h
  | cons j items => exact (keeps_toValue h j).trans (keeps_toValues _ items)

lemma keeps_toEntries (h : Heap) (members : List (String × Json)) :
    h.Keeps (toEntries h members).2 := by
  cases members with
  | nil => exact .refl h
  | cons m members =>
    obtain ⟨key, j⟩ := m
    exact (keeps_toValue h j).trans (keeps_toEntries _ members)

end

mutual

/-- No object that is built has a name twice. -/
lemma nodup_toValue {h : Heap} (hkeys : ∀ o, (h.record o).keys.Nodup) (j : Json) (o : ℕ) :
    ((j.toValue h).2.record o).keys.Nodup := by
  cases j with
  | null | bool | integer | double | string => exact hkeys o
  | array items => exact nodup_toValues hkeys items o
  | object members =>
    exact Heap.nodup_newObject (nodup_toEntries hkeys members) (Record.nodup_keys_ofList _) none o

lemma nodup_toValues {h : Heap} (hkeys : ∀ o, (h.record o).keys.Nodup) (items : List Json)
    (o : ℕ) : ((toValues h items).2.record o).keys.Nodup := by
  cases items with
  | nil => exact hkeys o
  | cons j items => exact nodup_toValues (nodup_toValue hkeys j) items o

lemma nodup_toEntries {h : Heap} (hkeys : ∀ o, (h.record o).keys.Nodup)
    (members : List (String × Json)) (o : ℕ) :
    ((toEntries h members).2.record o).keys.Nodup := by
  cases members with
  | nil => exact hkeys o
  | cons m members =>
    obtain ⟨key, j⟩ := m
    exact nodup_toEntries (nodup_toValue hkeys j) members o

end

/-- The value was built of the document on the way from one heap to the other. -/
def Built (h k : Heap) (j : Json) (v : Value) : Prop :=
  ∃ i, h.Keeps i ∧ (j.toValue i).2.Keeps k ∧ (j.toValue i).1 = v

lemma Built.of_keeps {h h' k : Heap} {j : Json} {v : Value} (hv : Built h' k j v)
    (hh : h.Keeps h') : Built h k j v :=
  hv.imp fun _ hi => ⟨hh.trans hi.1, hi.2⟩

/-- What holds of the value of the document, built in any such heap, holds of the one that was. -/
lemma Built.of_forall {h k k' : Heap} {j : Json} {v : Value} {P : Value → Prop}
    (hv : Built h k j v) (hk : k.Keeps k')
    (hP : ∀ i, h.Keeps i → (j.toValue i).2.Keeps k' → P (j.toValue i).1) : P v := by
  obtain ⟨i, hi, hik, rfl⟩ := hv
  exact hP i hi (hik.trans hk)

lemma built_toValues (h : Heap) (items : List Json) :
    List.Forall₂ (Built h (toValues h items).2) items (toValues h items).1 := by
  induction items generalizing h with
  | nil => exact .nil
  | cons j items ih =>
    exact .cons ⟨h, .refl h, keeps_toValues _ items, rfl⟩
      ((ih _).imp fun _ _ hv => hv.of_keeps (keeps_toValue h j))

lemma built_toEntries (h : Heap) (members : List (String × Json)) :
    List.Forall₂ (fun m x => m.1 = x.1 ∧ Built h (toEntries h members).2 m.2 x.2) members
      (toEntries h members).1 := by
  induction members generalizing h with
  | nil => exact .nil
  | cons m members ih =>
    obtain ⟨key, j⟩ := m
    exact .cons ⟨rfl, h, .refl h, keeps_toEntries _ members, rfl⟩
      ((ih _).imp fun _ _ hx => ⟨hx.1, hx.2.of_keeps (keeps_toValue h j)⟩)

lemma names_toEntries (h : Heap) (members : List (String × Json)) :
    members.map Prod.fst = (toEntries h members).1.map Prod.fst := by
  rw [← List.forall₂_eq_eq_eq, List.forall₂_map_left_iff, List.forall₂_map_right_iff]
  exact (built_toEntries h members).imp fun _ _ hx => hx.1

/-- The elements of an array that is built. -/
lemma items_toValue {h k : Heap} {items : List Json} (hk : (toValue h (.array items)).2.Keeps k) :
    ∃ a, (toValue h (.array items)).1 = .array a ∧ (k.items a).toList = (toValues h items).1 := by
  refine ⟨_, rfl, ?_⟩
  rw [hk.items_eq (by simp [toValue, Heap.newArray])]
  exact congrArg Array.toList (Heap.items_newArray_self _ _)

/-- The properties of an object that is built of sorted members. -/
lemma entries_toValue {h k : Heap} {members : List (String × Json)} (hsorted : Sorted members)
    (hk : (toValue h (.object members)).2.Keeps k) :
    ∃ o, (toValue h (.object members)).1 = .object o ∧
      (k.record o).entries = (toEntries h members).1 := by
  refine ⟨_, rfl, ?_⟩
  rw [Heap.record, hk.object_eq (by simp [toValue, Heap.newObject])]
  refine (congrArg (fun x : Object => x.record.entries)
    (Heap.object_newObject_self _ _ _)).trans ?_
  exact Record.entries_ofList (names_toEntries h members ▸ hsorted.nodup)

/-! ## Documents that are read back -/

/-- The documents whose numbers are small integers or have a fraction.  The members of an object are
sorted. -/
inductive Exact : Json → Prop
  | null : Exact .null
  | bool (b : Bool) : Exact (.bool b)
  | integer {n : ℤ} (hn : n.natAbs < integerBound) : Exact (.integer n)
  | double {x : Float} (hfinite : x.isFinite = true) (hx : ∀ n, ¬ Number.IsInteger x n) :
    Exact (.double x)
  | string (s : String) : Exact (.string s)
  | array {items : List Json} (hitems : ∀ j ∈ items, Exact j) : Exact (.array items)
  | object {members : List (String × Json)} (hsorted : Sorted members)
    (hmembers : ∀ m ∈ members, Exact m.2) : Exact (.object members)

lemma mapM_of_forall₂ {α β : Type} {f : α → Option β} {l : List α} (bs : List β)
    (hl : List.Forall₂ (fun b a => f a = some b) bs l) : l.mapM f = some bs := by
  induction hl with
  | nil => rfl
  | cons hfirst _ ih =>
    rw [List.mapM_cons, hfirst, ih]
    rfl

/-- What is built of a document has this document for its view, also when the heap has grown. -/
lemma Exact.toJson?_toValue {j : Json} (hj : j.Exact) {h k : Heap}
    (hk : (j.toValue h).2.Keeps k) : k.toJson? (j.toValue h).1 = some j := by
  induction hj generalizing h k with
  | null | bool | string => rfl
  | integer hn => exact congrArg some (ofNumber_ofInt hn)
  | double hfinite hx => exact congrArg some (ofNumber_of_not_isInteger hfinite hx)
  | @array items _ ih =>
    obtain ⟨a, ha, hitems⟩ := items_toValue hk
    rw [ha, Heap.toJson?_array, hitems, mapM_of_forall₂ items]
    · rfl
    · refine ((List.forall₂_and_left _ _).2 ⟨fun j hj => hj, built_toValues h items⟩).imp ?_
      rintro j v ⟨hj, hv⟩
      exact hv.of_forall ((Heap.keeps_newArray _ _).trans hk) (P := (k.toJson? · = j))
        fun _ _ hi => ih j hj hi
  | @object members hsorted _ ih =>
    obtain ⟨o, ho, hentries⟩ := entries_toValue hsorted hk
    rw [ho, Heap.toJson?_object, hentries, mapM_of_forall₂ members]
    · simp [sortMembers_eq_self hsorted]
    · refine ((List.forall₂_and_left _ _).2 ⟨fun m hm => hm, built_toEntries h members⟩).imp ?_
      rintro m x ⟨hm, hname, hv⟩
      have hview := hv.of_forall ((Heap.keeps_newObject _ _ _).trans hk) (P := (k.toJson? · = m.2))
        fun _ _ hi => ih m hm hi
      rw [hview, Option.map_some, ← hname]

end Json

/-! ## Values that are read back -/

namespace Heap

variable {h k k' : Heap} {v w : Value} {n : ℕ} {j : Json}

/-- The value is one that a document can hold, and the heap has it. -/
def IsData (h : Heap) : Value → Prop
  | .null | .bool _ | .string _ => True
  | .number x => x.isFinite = true
  | .array a => a < h.arrays.size
  | .object o => o < h.objects.size
  | .undefined | .function _ => False

/-- A container that is there holds the same as long as the heap only grows. -/
lemma Keeps.held_eq (hk : h.Keeps k) (hv : h.IsData v) : k.held v = h.held v := by
  cases v with
  | array a => rw [held, held, hk.items_eq hv]
  | object o => rw [held, held, record, hk.object_eq hv, record]
  | _ => rfl

/-- Where there is nothing but data, the growth of the heap makes no value contain itself. -/
lemma Keeps.not_cyclic (hk : h.Keeps k) (hdata : ∀ w, ReflTransGen h.Holds v w → h.IsData w)
    (hv : ¬ h.Cyclic v) : ¬ k.Cyclic v := by
  have hholds : ∀ u, ReflTransGen h.Holds v u → ∀ w, k.Holds u w ↔ h.Holds u w := fun u hu w => by
    rw [Holds, Holds, hk.held_eq (hdata u hu)]
  have hreach : ∀ w, ReflTransGen k.Holds v w → ReflTransGen h.Holds v w := by
    intro w hw
    induction hw with
    | refl => exact .refl
    | tail _ huw ih => exact ih.tail ((hholds _ ih _).1 huw)
  rintro ⟨w, hw, hloop⟩
  have hw' := hreach w hw
  refine hv ⟨w, hw', ?_⟩
  have hlift : ∀ u, TransGen k.Holds w u → TransGen h.Holds w u := by
    intro u hu
    induction hu with
    | single hu => exact .single ((hholds w hw' _).1 hu)
    | tail _ hux ih => exact ih.tail ((hholds _ (hw'.trans ih.to_reflTransGen) _).1 hux)
  exact hlift w hloop

lemma Alike.of_forall₂ {a b : ℕ}
    (hitems : List.Forall₂ h.Alike (h.items a).toList (h.items b).toList) :
    h.Alike (.array a) (.array b) := by
  obtain ⟨hlength, hzip⟩ := List.forall₂_iff_zip.1 hitems
  exact Alike.array_iff.2 (.inr ⟨by simpa using hlength, fun x hx => hzip hx⟩)

lemma forall₂_of_mapM {α β : Type} {f : α → Option β} {l : List α} {bs : List β}
    (hl : l.mapM f = some bs) : List.Forall₂ (fun a b => a ∈ l ∧ f a = some b) l bs := by
  refine (List.forall₂_and_left _ _).2 ⟨fun a ha => ha, ?_⟩
  induction l generalizing bs with
  | nil =>
    cases hl
    exact .nil
  | cons a l ih =>
    obtain ⟨b, cs, rfl, hb, hcs⟩ := mapM_cons_cases hl
    exact .cons hb (ih hcs)

lemma forall₂_comp {α β γ : Type} {R : α → β → Prop} {S : β → γ → Prop} {T : α → γ → Prop}
    {as : List α} {bs : List β} {cs : List γ} (hab : List.Forall₂ R as bs)
    (hbc : List.Forall₂ S bs cs) (hT : ∀ a b c, R a b → S b c → T a c) :
    List.Forall₂ T as cs := by
  induction hab generalizing cs with
  | nil =>
    cases hbc
    exact .nil
  | cons hfirst _ ih =>
    cases hbc with
    | cons hfirst' hrest => exact .cons (hT _ _ _ hfirst hfirst') (ih hrest)

lemma exists_of_forall₂ {α β : Type} {R : α → β → Prop} {as : List α} {bs : List β} {b : β}
    (hl : List.Forall₂ R as bs) (hb : b ∈ bs) : ∃ a ∈ as, R a b := by
  induction hl with
  | nil => cases hb
  | @cons a _ _ _ hfirst _ ih =>
    rcases List.mem_cons.1 hb with rfl | hb
    · exact ⟨a, .head _, hfirst⟩
    · obtain ⟨a', ha', hab⟩ := ih hb
      exact ⟨a', .tail _ ha', hab⟩

lemma alike_ofPlain (hv : h.IsData v) (hplain : v.isContainer = false) (k k' : Heap) :
    k'.Alike v ((Json.ofPlain v).toValue k).1 := by
  cases v with
  | null | bool | string => exact .same (Value.same_self _)
  | number x =>
    rw [Json.ofPlain]
    rcases Json.ofNumber_cases hv with hx | ⟨n, hx, hsame⟩
    · rw [hx]
      exact .same (Value.same_self _)
    · rw [hx]
      exact .same hsame
  | undefined => cases hv
  | array | object | function => cases hplain

/-- The views of properties, sorted, have the same names and are the views of the same values. -/
lemma members_of_mapM {view : Value → Option Json} {r : Record Value}
    {members : List (String × Json)} (hnodup : r.keys.Nodup)
    (hmembers : r.entries.mapM (fun x => do return (x.1, ← view x.2)) = some members) :
    ((Json.sortMembers members).map Prod.fst).Perm r.keys ∧
      ∀ m ∈ Json.sortMembers members, ∃ v, r.get? m.1 = some v ∧ view v = some m.2 := by
  have hview : List.Forall₂ (fun x m => x ∈ r.entries ∧ x.1 = m.1 ∧ view x.2 = some m.2) r.entries
      members := by
    refine (forall₂_of_mapM hmembers).imp fun x m hx => ?_
    obtain ⟨j, hj, hend⟩ := Option.bind_eq_some_iff.1 hx.2
    cases hend
    exact ⟨hx.1, rfl, hj⟩
  have hnames : r.keys = members.map Prod.fst := by
    rw [Record.keys, ← List.forall₂_eq_eq_eq, List.forall₂_map_left_iff,
      List.forall₂_map_right_iff]
    exact hview.imp fun _ _ hx => hx.2.1
  have hperm := Json.sortMembers_perm (hnames ▸ hnodup)
  refine ⟨hnames ▸ hperm.map _, fun m hm => ?_⟩
  obtain ⟨x, hx, -, hname, hj⟩ := exists_of_forall₂ hview (hperm.mem_iff.1 hm)
  exact ⟨x.2, hname ▸ get?_of_mem_entries hnodup hx, hj⟩

/-- What is built of the view of a value has the contents of this value. -/
lemma alike_toValue (hkeys : ∀ o, (h.record o).keys.Nodup)
    (hdata : ∀ w, ReflTransGen h.Holds v w → h.IsData w) (hj : h.toJsonWithin n v = some j)
    (hk : h.Keeps k) (hk' : (j.toValue k).2.Keeps k') : k'.Alike v (j.toValue k).1 := by
  induction n generalizing v j k with
  | zero =>
    cases v with
    | array | object => cases hj
    | function f => exact (hdata _ .refl).elim
    | _ =>
      cases hj
      exact alike_ofPlain (hdata _ .refl) rfl _ _
  | succ n ih =>
    have hgrown : h.Keeps k' := hk.trans ((j.keeps_toValue k).trans hk')
    cases v with
    | array a =>
      obtain ⟨js, hjs, hend⟩ := Option.bind_eq_some_iff.1 hj
      cases hend
      obtain ⟨b, hb, hitems⟩ := Json.items_toValue hk'
      rw [hb]
      refine .of_forall₂ ?_
      rw [hitems, hgrown.items_eq (hdata _ .refl)]
      refine forall₂_comp (forall₂_of_mapM hjs) (Json.built_toValues k js) ?_
      rintro v j w ⟨hv, hj⟩ hw
      exact hw.of_forall ((keeps_newArray _ _).trans hk') fun i hi hik =>
        ih (fun u hu => hdata u (.head hv hu)) hj (hk.trans hi) hik
    | object o =>
      obtain ⟨members, hmembers, hend⟩ := Option.bind_eq_some_iff.1 hj
      cases hend
      obtain ⟨hnames, hviews⟩ := members_of_mapM (hkeys o) hmembers
      obtain ⟨p, hp, hentries⟩ := Json.entries_toValue (Json.sorted_sortMembers members) hk'
      have ho : k'.record o = h.record o :=
        congrArg Object.record (hgrown.object_eq (hdata _ .refl))
      rw [hp]
      refine .object (fun key => ?_) fun key v w hv hw => ?_
      · have hbuilt : (k'.record p).keys = (Json.sortMembers members).map Prod.fst := by
          rw [Record.keys, hentries, ← Json.names_toEntries]
        rw [Bool.eq_iff_iff, ← mem_keys_iff, ← mem_keys_iff, ho, hbuilt, hnames.mem_iff]
      · rw [ho] at hv
        have hw' := mem_of_lookup hw
        rw [hentries] at hw'
        obtain ⟨m, hm, hname, hbuilt⟩ := exists_of_forall₂ (Json.built_toEntries k _) hw'
        obtain ⟨v', hv', hview⟩ := hviews m hm
        obtain rfl : v' = v := Option.some.inj (hv'.symm.trans (hname ▸ hv))
        exact hbuilt.of_forall ((keeps_newObject _ _ _).trans hk') fun i hi hik =>
          ih (fun u hu => hdata u (.head (holds_of_get? hv) hu)) hview (hk.trans hi) hik
    | function f => exact (hdata _ .refl).elim
    | _ =>
      cases hj
      exact alike_ofPlain (hdata _ .refl) rfl _ _

/-! ## There and back -/

/-- Nothing is lost between values and documents.  A value of data that does not contain itself has
a view, and what is built of this view is equal to it by contents; a document whose numbers are
small integers or have a fraction is the view of what is built of it. -/
structure RoundTrips (h : Heap) : Prop where
  value : ∀ v, (∀ w, ReflTransGen h.Holds v w → h.IsData w) → ¬ h.Cyclic v →
    ∃ j, h.toJson? v = some j ∧
      (j.toValue h).2.deepEq? (j.toValue h).1 v = some true ∧
      (j.toValue h).2.deepEq? v (j.toValue h).1 = some true
  document : ∀ j : Json, j.Exact → (j.toValue h).2.toJson? (j.toValue h).1 = some j

/-- Where no object has a name twice, values and documents survive the way there and back. -/
theorem round_trips (hkeys : ∀ o, (h.record o).keys.Nodup) : h.RoundTrips where
  value v hdata hv := by
    obtain ⟨j, hj⟩ := Option.ne_none_iff_exists'.1 (toJson?_eq_none_iff.not.2 hv)
    have halike := alike_toValue hkeys hdata hj (.refl h) (.refl (j.toValue h).2)
    have hkeys' := Json.nodup_toValue hkeys j
    have hv' := (j.keeps_toValue h).not_cyclic hdata hv
    have hequal := (deepEq?_eq_true_iff hkeys' hv').2 halike
    exact ⟨j, hj, (deepEq?_comm hkeys' hv' _).trans hequal, hequal⟩
  document _ hj := hj.toJson?_toValue (.refl _)

/-- An object that inherits from another one and holds an array. -/
def satchel : Heap where
  arrays := #[#[.null, .bool true, .number 0.5, .number (-0.0)]]
  objects := #[⟨⟨[("colour", .string "red")]⟩, none⟩,
    ⟨⟨[("label", .string "a"), ("books", .array 0)]⟩, some 0⟩]
  closures := #[]

lemma nodup_satchel (o : ℕ) : (satchel.record o).keys.Nodup := by
  match o with
  | 0 => decide
  | 1 => decide
  | _ + 2 => exact List.nodup_nil

/-- What the object holds is data, and only the array holds something in its turn. -/
lemma isData_of_satchel {w : Value} (hw : ReflTransGen satchel.Holds (.object 1) w) :
    satchel.IsData w := by
  have hobject : satchel.held (.object 1) = [.string "a", .array 0] := by rfl
  have harray : satchel.held (.array 0) = [.null, .bool true, .number 0.5, .number (-0.0)] := by rfl
  have hmem : w = .object 1 ∨ w ∈ satchel.held (.object 1) ∨ w ∈ satchel.held (.array 0) := by
    induction hw with
    | refl => exact .inl rfl
    | tail _ hstep ih =>
      rcases ih with rfl | hu | hu
      · exact .inr (.inl hstep)
      · rw [hobject] at hu
        simp only [List.mem_cons, List.not_mem_nil, or_false] at hu
        rcases hu with rfl | rfl
        · cases hstep
        · exact .inr (.inr hstep)
      · rw [harray] at hu
        simp only [List.mem_cons, List.not_mem_nil, or_false] at hu
        rcases hu with rfl | rfl | rfl | rfl <;> cases hstep
  rw [hobject, harray] at hmem
  simp only [List.mem_cons, List.not_mem_nil, or_false] at hmem
  rcases hmem with rfl | (rfl | rfl) | rfl | rfl | rfl | rfl
  · exact (by decide : 1 < satchel.objects.size)
  · trivial
  · exact (by decide : 0 < satchel.arrays.size)
  · trivial
  · trivial
  · exact (by rfl : Float.isFinite 0.5 = true)
  · exact (by rfl : Float.isFinite (-0.0) = true)

/-- The document of an object, with a number of each kind. -/
def inventory : Json := .object [("count", .integer (-3)), ("weights", .array [.double 0.5, .null])]

lemma exact_inventory : inventory.Exact := by
  have hhalf : ∀ n, ¬ Number.IsInteger 0.5 n := fun n hn => by
    have hnone : Number.toInt? 0.5 = none := by rfl
    cases hnone.symm.trans (Number.toInt?_eq_some_iff.2 hn)
  refine .object (by unfold Json.Sorted; decide) ?_
  simp only [List.mem_cons, List.not_mem_nil, or_false, forall_eq_or_imp, forall_eq]
  refine ⟨.integer (by decide), .array ?_⟩
  simp only [List.mem_cons, List.not_mem_nil, or_false, forall_eq_or_imp, forall_eq]
  exact ⟨.double (by rfl) hhalf, .null⟩

/-- An object and a document, each with a container inside, survive the way there and back. -/
theorem satchel_round_trips : (∀ o, (satchel.record o).keys.Nodup) ∧
    (∃ j, satchel.toJson? (.object 1) = some j ∧
      (j.toValue satchel).2.deepEq? (j.toValue satchel).1 (.object 1) = some true) ∧
    (inventory.toValue satchel).2.toJson? (inventory.toValue satchel).1 = some inventory := by
  have htrips := round_trips nodup_satchel
  have hacyclic : ¬ satchel.Cyclic (.object 1) := fun hcyclic => by
    cases freeze?_eq_none_iff.2 hcyclic
  obtain ⟨j, hj, hequal, -⟩ := htrips.value (.object 1) (fun _ => isData_of_satchel) hacyclic
  exact ⟨nodup_satchel, ⟨j, hj, hequal⟩, htrips.document _ exact_inventory⟩

end Heap

end DataBinding
