import DataBinding.Proofs.Freshness
import DataBinding.Evaluation.Guard

/-!
# Writing at the end of a trail

Names lead from an object through its members to a value (`Heap.follow`).  To write there is to go
along them, with an empty object put wherever one is missing (`Heap.pave`), and to write the last
name in the object that this ends at (`Heap.writeAlong`).

On a `Heap.Trail` the objects that are there do not inherit and come up once, so no write disturbs
what leads to it.  Then the names lead to what was written (`Heap.Trail.follow_writeAlong`), by the
same objects as before (`Heap.Trail.follow_writeAlong_of_object`).  Of all that was there, one
property is written: the last one, or the first one that leads to no object
(`Heap.Trail.exists_lands`).
-/

namespace DataBinding

open Relation (ReflTransGen)

namespace Heap

variable {h k : Heap} {c o p : ℕ} {key last : String} {init names : List String} {v x : Value}

/-! ## Reading along names -/

/-- The value that the names lead to, read member by member. -/
def follow (h : Heap) (v : Value) (names : List String) : Value := names.foldl h.getMember v

/-- The first object is the second one or inherits from it. -/
def Inherits (h : Heap) : ℕ → ℕ → Prop := ReflTransGen fun o p => h.parent? o = some p

lemma Inherits.le (hop : h.Inherits o p) : p ≤ o := by
  induction hop with
  | refl => exact le_rfl
  | tail _ hparent ih =>
    have hlt := (Option.filter_eq_some_iff.1 hparent).2
    exact (of_decide_eq_true hlt).le.trans ih

lemma Inherits.eq_of_parent?_eq_none (hop : h.Inherits o p) (ho : h.parent? o = none) : p = o := by
  rcases hop.cases_head with rfl | ⟨q, hq, -⟩
  · rfl
  · cases ho.symm.trans hq

/-- A property is found where the object and all that it inherits from are the same. -/
lemma find?_congr (hsame : ∀ p, h.Inherits o p → k.object p = h.object p) (key : String) :
    k.find? key o = h.find? key o := by
  induction o using Nat.strongRecOn with
  | ind o ih =>
    have hobject := hsame o .refl
    have hrecord : k.record o = h.record o := congrArg Object.record hobject
    have hparent : k.parent? o = h.parent? o := by rw [parent?, proto, hobject, parent?, proto]
    rw [find?_eq, h.find?_eq, hrecord, hparent]
    cases hp : h.parent? o with
    | none => rfl
    | some p =>
      have hlt : p < o := of_decide_eq_true (Option.filter_eq_some_iff.1 hp).2
      rw [Option.bind_some, Option.bind_some, ih p hlt fun q hq => hsame q (.head hp hq)]

/-- Undefined and null have no members, so names lead on to nothing. -/
lemma isNullish_follow (hv : v.isNullish) (names : List String) : (h.follow v names).isNullish := by
  induction names generalizing v with
  | nil => exact hv
  | cons key names ih =>
    refine ih (v := h.getMember v key) ?_
    rcases (Value.isNullish_iff v).1 hv with rfl | rfl <;> rfl

lemma follow_ne_object (hv : v.isNullish) : h.follow v names ≠ .object o := by
  intro ho
  have hnullish := isNullish_follow (h := h) hv names
  rw [ho] at hnullish
  cases hnullish

lemma forbidden?_of_isNullish (hv : v.isNullish) : h.forbidden? v = none := by
  rcases (Value.isNullish_iff v).1 hv with rfl | rfl <;> rfl

/-! ## Going along names -/

/-- The object at a member, or an empty one that is put there. -/
def enter (h : Heap) (o : ℕ) (key : String) : ℕ × Heap :=
  match h.get o key with
  | .object p => (p, h)
  | _ => (h.objects.size, (h.newObject .empty none).2.setOwn o key (.object h.objects.size))

/-- The object that the names lead to, where all that is missing on the way is put there. -/
def pave (h : Heap) (o : ℕ) : List String → ℕ × Heap
  | [] => (o, h)
  | key :: rest => (h.enter o key).2.pave (h.enter o key).1 rest

/-- The heap after the value is written at the end of the names. -/
def writeAlong (h : Heap) (o : ℕ) (init : List String) (last : String) (v : Value) : Heap :=
  (h.pave o init).2.setOwn (h.pave o init).1 last v

lemma enter_of_object (hp : h.get o key = .object p) : h.enter o key = (p, h) := by
  rw [enter, hp]

lemma enter_of_isNullish (hgap : (h.get o key).isNullish) : h.enter o key =
    (h.objects.size, (h.newObject .empty none).2.setOwn o key (.object h.objects.size)) := by
  rw [enter]
  rcases (Value.isNullish_iff _).1 hgap with hget | hget <;> rw [hget]

/-- The object is empty and inherits nothing. -/
structure Blank (h : Heap) (o : ℕ) : Prop where
  record : h.record o = .empty
  parent : h.parent? o = none

namespace Blank

lemma get (ho : h.Blank o) (key : String) : h.get o key = .undefined := by
  rw [Heap.get, find?_eq, ho.record, ho.parent]
  rfl

lemma isNullish_get (ho : h.Blank o) (key : String) : (h.get o key).isNullish := by
  rw [ho.get]
  rfl

lemma accepted (ho : h.Blank o) : h.forbidden? (.object o) = none := by
  simp only [forbidden?, isOwnMember, looksLikeNode, ho.get]
  rfl

end Blank

/-- To put an object where none is changes nothing else of what was there. -/
lemma keeps_enter (hgap : (h.get o key).isNullish) :
    (h.setOwn o key (.object h.objects.size)).Keeps (h.enter o key).2 := by
  rw [enter_of_isNullish hgap]
  refine ⟨fun _ => rfl, fun {p} hp => ?_, fun _ => rfl⟩
  have hlt : p < h.objects.size := by simpa [setOwn, setRecord] using hp
  have hrecord : o < h.objects.size → (h.newObject .empty none).2.record o = h.record o := fun ho =>
    congrArg Object.record (object_newObject_of_lt h _ none ho)
  by_cases hop : o = p
  · subst hop
    rw [setOwn, hrecord hlt]
    simp [setOwn, setRecord, newObject, Array.getElem?_modify, Array.getElem?_push, hlt.ne]
  · simp [setOwn, setRecord, newObject, Array.getElem?_modify, Array.getElem?_push, hlt.ne, hop]

lemma blank_enter (ho : h.Has (.object o)) (hgap : (h.get o key).isNullish) :
    (h.enter o key).2.Blank (h.enter o key).1 := by
  rw [enter_of_isNullish hgap]
  have hne : h.objects.size ≠ o := fun heq => lt_irrefl o (heq ▸ ho : o < o)
  have hobject : ((h.newObject .empty none).2.setOwn o key (.object h.objects.size)).object
      h.objects.size = ⟨.empty, none⟩ := by
    rw [setOwn, object_setRecord_of_ne _ hne]
    exact h.object_newObject_self .empty none
  exact ⟨congrArg Object.record hobject, by rw [parent?, proto, hobject]; rfl⟩

/-! ## Trails -/

/-- The guard lets pass what the names lead to on the way and in the end.  Before the end this is
undefined, null, or an object that inherits nothing, is not where the way starts nor inherited from
there, and does not come up twice. -/
structure Trail (h : Heap) (c : ℕ) (names : List String) : Prop where
  accepted : ∀ way, way <+: names → way ≠ [] → h.forbidden? (h.follow (.object c) way) = none
  object : ∀ way, way <+: names → way ≠ [] → way ≠ names →
    (h.follow (.object c) way).isNullish ∨ ∃ o, h.follow (.object c) way = .object o ∧
      h.Has (.object o) ∧ h.parent? o = none ∧ ¬ h.Inherits c o
  distinct : ∀ way way' o, way <+: names → way' <+: names → way ≠ [] → way' ≠ [] →
    way ≠ names → way' ≠ names → h.follow (.object c) way = .object o →
      h.follow (.object c) way' = .object o → way = way'

namespace Trail

/-- Names of which the first leads to nothing are a trail, however many there are. -/
lemma of_gap (hgap : (h.get c key).isNullish) (names : List String) : h.Trail c (key :: names) := by
  have hmissing : ∀ way, way <+: key :: names → way ≠ [] →
      (h.follow (.object c) way).isNullish := by
    intro way hway hstart
    obtain ⟨first, way, rfl⟩ := List.exists_cons_of_ne_nil hstart
    obtain ⟨rfl, -⟩ := List.cons_prefix_cons.1 hway
    exact isNullish_follow hgap way
  refine ⟨fun way hway hstart => forbidden?_of_isNullish (hmissing way hway hstart),
    fun way hway hstart _ => .inl (hmissing way hway hstart), ?_⟩
  intro way way' o hway _ hstart _ _ _ hleads _
  have hnullish := hmissing way hway hstart
  rw [hleads] at hnullish
  cases hnullish

lemma accepted_head (ht : h.Trail c (key :: names)) : h.forbidden? (h.get c key) = none :=
  ht.accepted [key] ⟨names, rfl⟩ nofun

/-- There is an object at the first name, or nothing, unless the name is the last one. -/
lemma head_cases (ht : h.Trail c (key :: names)) (hnames : names ≠ []) :
    (h.get c key).isNullish ∨ ∃ o, h.get c key = .object o ∧ h.Has (.object o) ∧
      h.parent? o = none ∧ ¬ h.Inherits c o :=
  ht.object [key] ⟨names, rfl⟩ nofun fun heq => hnames (List.cons.inj heq).2.symm

/-- From an object at the first name on, the trail goes on. -/
lemma tail (ht : h.Trail c (key :: names)) (hnames : names ≠ []) (hp : h.get c key = .object p) :
    h.Trail p names := by
  have hfollow : ∀ way, h.follow (.object p) way = h.follow (.object c) (key :: way) := by
    intro way
    change _ = h.follow (h.get c key) way
    rw [hp]
  have hhead : [key] ≠ key :: names := fun heq => hnames (List.cons.inj heq).2.symm
  have hne : ∀ {way}, way ≠ names → key :: way ≠ key :: names := fun hway heq =>
    hway (List.cons.inj heq).2
  have hcons : ∀ {way}, way <+: names → key :: way <+: key :: names := fun hway =>
    List.cons_prefix_cons.2 ⟨rfl, hway⟩
  refine ⟨fun way hway _ => ?_, fun way hway hstart hend => ?_, ?_⟩
  · rw [hfollow]
    exact ht.accepted _ (hcons hway) nofun
  · rw [hfollow]
    refine (ht.object _ (hcons hway) nofun (hne hend)).imp_right ?_
    rintro ⟨o, hleads, hhas, hparent, -⟩
    refine ⟨o, hleads, hhas, hparent, fun hinherits => ?_⟩
    -- The object at the first name inherits nothing, so it would come up again.
    obtain ⟨q, hq, -, hroot, -⟩ := (ht.head_cases hnames).resolve_left (by rw [hp]; nofun)
    cases hp.symm.trans hq
    obtain rfl := hinherits.eq_of_parent?_eq_none hroot
    have hsame := ht.distinct [key] (key :: way) o ⟨names, rfl⟩ (hcons hway) nofun nofun hhead
      (hne hend) hp hleads
    exact hstart (List.cons.inj hsame).2.symm
  · intro way way' o hway hway' _ _ hend hend' hleads hleads'
    rw [hfollow] at hleads hleads'
    exact (List.cons.inj (ht.distinct _ _ o (hcons hway) (hcons hway') nofun nofun (hne hend)
      (hne hend') hleads hleads')).2

/-- The object at the first name, which may have been put there, is one of the heap, it is accepted,
and the trail goes on from it. -/
lemma enter (ht : h.Trail c (key :: names)) (hc : h.Has (.object c)) (hnames : names ≠ []) :
    (h.enter c key).2.Has (.object (h.enter c key).1) ∧
      (h.enter c key).2.forbidden? (.object (h.enter c key).1) = none ∧
      (h.enter c key).2.Trail (h.enter c key).1 names := by
  rcases ht.head_cases hnames with hgap | ⟨p, hp, hhas, -, -⟩
  · have hblank := blank_enter hc hgap
    obtain ⟨next, names, rfl⟩ := List.exists_cons_of_ne_nil hnames
    refine ⟨?_, hblank.accepted, .of_gap (hblank.isNullish_get next) names⟩
    rw [enter_of_isNullish hgap]
    simp [Has, setOwn, setRecord, newObject]
  · rw [enter_of_object hp]
    exact ⟨hhas, hp ▸ ht.accepted_head, ht.tail hnames hp⟩

end Trail

/-! ## What is written -/

/-- A write of `v` at the end of the names comes down to a write of `x` at `key` in `o`.  The names
before `key` lead to `o`.  Either `key` is the last name and `x` is `v`, or `key` leads to nothing
and `x` is the first object that is made. -/
def Lands (h : Heap) (c : ℕ) (names : List String) (v : Value) (o : ℕ) (key : String) (x : Value) :
    Prop :=
  ∃ front rest, names = front ++ key :: rest ∧ h.follow (.object c) front = .object o ∧
    (rest = [] ∧ x = v ∨
      rest ≠ [] ∧ (h.follow (.object c) (front ++ [key])).isNullish ∧ x = .object h.objects.size)

lemma Lands.cons {other : String} (hp : h.get c key = .object p)
    (hl : h.Lands p names v o other x) : h.Lands c (key :: names) v o other x := by
  have hfollow : ∀ way, h.follow (.object c) (key :: way) = h.follow (.object p) way := by
    intro way
    change h.follow (h.get c key) way = _
    rw [hp]
  obtain ⟨front, rest, rfl, hfront, hend⟩ := hl
  exact ⟨key :: front, rest, rfl, (hfollow front).trans hfront, by
    rwa [List.cons_append, hfollow]⟩

namespace Trail

/-- One property is written of all that was there. -/
lemma exists_lands (ht : h.Trail c (init ++ [last])) (hc : h.Has (.object c)) (v : Value) :
    ∃ o key x, h.Lands c (init ++ [last]) v o key x ∧
      (h.setOwn o key x).Keeps (h.writeAlong c init last v) := by
  induction init generalizing h c with
  | nil => exact ⟨c, last, v, ⟨[], [], rfl, rfl, .inl ⟨rfl, rfl⟩⟩, .refl _⟩
  | cons key init ih =>
    have hinit : init ++ [last] ≠ [] := by simp
    obtain ⟨hhas, -, hrest⟩ := ht.enter hc hinit
    obtain ⟨o, other, x, hlands, hkeeps⟩ := ih hrest hhas
    rcases ht.head_cases hinit with hgap | ⟨p, hp, -, -, -⟩
    · refine ⟨c, key, .object h.objects.size, ⟨[], _, rfl, rfl, .inr ⟨hinit, hgap, rfl⟩⟩, ?_⟩
      -- Nothing is at any name from here on, so what is written next is the object just made.
      obtain ⟨front, -, -, hfront, -⟩ := hlands
      have hnil : front = [] := by
        by_contra hne
        obtain ⟨next, front, rfl⟩ := List.exists_cons_of_ne_nil hne
        exact follow_ne_object ((blank_enter hc hgap).isNullish_get next) hfront
      subst hnil
      cases hfront
      refine ((keeps_enter hgap).setOwn ?_ other x).trans hkeeps
      rw [enter_of_isNullish hgap]
      simp [setOwn, setRecord]
    · rw [writeAlong, pave]
      rw [enter_of_object hp] at hlands hkeeps ⊢
      exact ⟨o, other, x, hlands.cons hp, hkeeps⟩

/-- Once the value is written, the object at the first name is the one that was entered. -/
lemma get_writeAlong (ht : h.Trail c (key :: init ++ [last])) (hc : h.Has (.object c)) (v : Value) :
    (h.writeAlong c (key :: init) last v).get c key = .object (h.enter c key).1 := by
  have hinit : init ++ [last] ≠ [] := by simp
  obtain ⟨o, other, x, ⟨front, rest, hnames, hfront, hend⟩, hkeeps⟩ := ht.exists_lands hc v
  have hlt : ∀ {q}, q ≤ c → q < (h.setOwn o other x).objects.size := fun hq => by
    simpa [setOwn, setRecord] using lt_of_le_of_lt hq hc
  cases front with
  | nil =>
    obtain ⟨rfl, rfl⟩ := List.cons.inj hnames
    cases hfront
    obtain ⟨-, hgap, rfl⟩ := hend.resolve_left fun hend => hinit hend.1
    have hrecord : (h.writeAlong c (key :: init) last v).record c =
        (h.record c).set key (.object h.objects.size) := by
      rw [record, hkeeps.object_eq (hlt le_rfl)]
      exact h.record_setRecord_self hc _
    rw [get, find?_of_own (by rw [hrecord, Record.get?_set_self]), enter_of_isNullish hgap]
    rfl
  | cons first front =>
    obtain ⟨rfl, hrest⟩ := List.cons.inj hnames
    have hprefix : key :: front <+: key :: init ++ [last] := ⟨other :: rest, hnames.symm⟩
    have hend : key :: front ≠ key :: init ++ [last] := by
      rw [hnames]
      simp
    obtain ⟨q, hq, -, -, haway⟩ := (ht.object _ hprefix (List.cons_ne_nil key front)
      hend).resolve_left fun hgap => by
        rw [hfront] at hgap
        cases hgap
    cases hfront.symm.trans hq
    -- The object that is written is not inherited from, so the first name leads where it did.
    have hget : (h.writeAlong c (key :: init) last v).get c key = h.get c key := by
      rw [get, find?_congr (fun q hq => ?_), get]
      rw [hkeeps.object_eq (hlt hq.le)]
      exact object_setRecord_of_ne _ (fun heq => haway (by rwa [heq] at hq)) _
    obtain ⟨p, hp, -, -, -⟩ := (ht.head_cases hinit).resolve_left fun hgap =>
      follow_ne_object hgap hfront
    rw [hget, hp, enter_of_object hp]

/-- What is written is what the names lead to. -/
lemma follow_writeAlong (ht : h.Trail c (init ++ [last])) (hc : h.Has (.object c)) (v : Value) :
    (h.writeAlong c init last v).follow (.object c) (init ++ [last]) = v := by
  induction init generalizing h c with
  | nil =>
    change (h.setOwn c last v).get c last = v
    have hrecord : (h.setOwn c last v).record c = (h.record c).set last v :=
      h.record_setRecord_self hc _
    rw [get, find?_of_own (by rw [hrecord, Record.get?_set_self])]
    rfl
  | cons key init ih =>
    obtain ⟨hhas, -, hrest⟩ := ht.enter hc (by simp)
    change Heap.follow _ ((h.writeAlong c (key :: init) last v).get c key) (init ++ [last]) = v
    rw [ht.get_writeAlong hc]
    exact ih hrest hhas

/-- The objects that were on the way are on it still. -/
lemma follow_writeAlong_of_object (ht : h.Trail c (init ++ [last])) (hc : h.Has (.object c))
    (v : Value) (hnames : names <+: init) (ho : h.follow (.object c) names = .object o) :
    (h.writeAlong c init last v).follow (.object c) names = .object o := by
  induction init generalizing h c names with
  | nil =>
    obtain rfl := List.prefix_nil.1 hnames
    exact ho
  | cons key init ih =>
    have hinit : init ++ [last] ≠ [] := by simp
    cases names with
    | nil => exact ho
    | cons first names =>
      obtain ⟨rfl, hprefix⟩ := List.cons_prefix_cons.1 hnames
      change Heap.follow _ ((h.writeAlong c (first :: init) last v).get c first) names = _
      rw [ht.get_writeAlong hc]
      change h.follow (h.get c first) names = _ at ho
      obtain ⟨p, hp, hhas, -, -⟩ := (ht.head_cases hinit).resolve_left fun hgap =>
        follow_ne_object hgap ho
      rw [hp] at ho
      rw [writeAlong, pave, enter_of_object hp]
      exact ih (ht.tail hinit hp) hhas hprefix ho

end Trail

end Heap

end DataBinding
