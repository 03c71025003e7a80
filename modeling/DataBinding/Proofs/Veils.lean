import DataBinding.Evaluation.Guard
import DataBinding.Evaluation.Operator
import DataBinding.Heap.Member
import DataBinding.Proofs.Simulation

/-!
# Heaps behind a veil

Five of the members that an expression cannot name belong to the machinery of objects: the ones with
underscores around them.  Two heaps differ only in what they store under these names if they are the
same behind a veil that hides it (`Heap.Veiled`).  Every other member reads the same in both, and so
does all that the guards look at; and both stay the same behind the veil if the same is written.
-/

namespace DataBinding

variable {σ : Type}

/-- The forbidden members that reach into the machinery of objects. -/
def reflectiveMembers : List String := forbiddenMembers.filter (· ≠ "constructor")

lemma forbidden_of_reflective {key : String} (h : key ∈ reflectiveMembers) :
    key ∈ forbiddenMembers :=
  (List.mem_filter.1 h).1

namespace Record

variable {α : Type} (r : Record α) {key : String}

/-- The record without the reflective members. -/
def visible : Record α := ⟨r.entries.filter fun e => e.1 ∉ reflectiveMembers⟩

lemma get?_visible (hkey : key ∉ reflectiveMembers) : r.visible.get? key = r.get? key := by
  obtain ⟨entries⟩ := r
  simp only [visible, get?]
  induction entries with
  | nil => rfl
  | cons e rest ih =>
    obtain ⟨k, x⟩ := e
    by_cases hk : k ∈ reflectiveMembers
    · have hne : key ≠ k := fun h => hkey (h ▸ hk)
      rw [List.filter_cons_of_neg (by simp [hk]), List.lookup_cons, beq_false_of_ne hne]
      exact ih
    · rw [List.filter_cons_of_pos (by simp [hk]), List.lookup_cons, List.lookup_cons, ih]

/-- What is written under another name is seen. -/
lemma visible_set (hkey : key ∉ reflectiveMembers) (x : α) :
    (r.set key x).visible = r.visible.set key x := by
  obtain ⟨entries⟩ := r
  simp only [visible, set, mk.injEq]
  induction entries with
  | nil => simp [setEntry, hkey]
  | cons e rest ih =>
    obtain ⟨k, y⟩ := e
    by_cases hk : k = key
    · subst hk
      simp [setEntry, hkey]
    · by_cases hhidden : k ∈ reflectiveMembers
      · simpa [setEntry, hk, hhidden] using ih
      · simpa [setEntry, hk, hhidden] using ih

/-- What is written under a reflective name is not seen. -/
lemma visible_set_reflective (hkey : key ∈ reflectiveMembers) (x : α) :
    (r.set key x).visible = r.visible := by
  obtain ⟨entries⟩ := r
  simp only [visible, set, mk.injEq]
  induction entries with
  | nil => simp [setEntry, hkey]
  | cons e rest ih =>
    obtain ⟨k, y⟩ := e
    by_cases hk : k = key
    · subst hk
      simp [setEntry, hkey]
    · by_cases hhidden : k ∈ reflectiveMembers
      · simpa [setEntry, hk, hhidden] using ih
      · simpa [setEntry, hk, hhidden] using ih

end Record

namespace Heap

variable {h k : Heap} {key : String}

/-! ## The members that the guard looks at -/

/-- The members by which the guard tells a window, a node of a document or a constructor. -/
def telltaleMembers : List String :=
  ["window", "children", "nodeName", "prop", "attr", "find", "constructor"]

/-- The guard judges a value by nothing but the telltale members, if it is an object, and by nothing
in the heap if it is not. -/
lemma forbidden?_eq_of_telltales {v : Value}
    (hget : ∀ o, v = .object o → ∀ key ∈ telltaleMembers, k.get o key = h.get o key) :
    k.forbidden? v = h.forbidden? v := by
  cases v with
  | object o =>
    have hget : ∀ key ∈ telltaleMembers, k.get o key = h.get o key := hget o rfl
    simp only [telltaleMembers, List.forall_mem_cons] at hget
    obtain ⟨hwindow, hchildren, hname, hprop, hattr, hfind, hconstructor, -⟩ := hget
    have hnode : k.looksLikeNode o = h.looksLikeNode o := by
      simp only [looksLikeNode, hchildren, hname, hprop, hattr, hfind]
    rw [forbidden?, forbidden?, hnode, isOwnMember, isOwnMember, isOwnMember, isOwnMember, hwindow,
      hconstructor]
  | function f =>
    cases f with
    | intrinsic operation => cases operation <;> rfl
    | made => rfl
  | _ => rfl

/-! ## What heap operations leave -/

lemma record_eq (h : Heap) (o : ℕ) : h.record o = (h.object o).record := rfl

lemma proto_eq (h : Heap) (o : ℕ) : h.proto o = (h.object o).proto := rfl

lemma object_newObject (h : Heap) (record : Record Value) (proto : Option ℕ) (o : ℕ) :
    (h.newObject record proto).2.object o =
      if o = h.objects.size then ⟨record, proto⟩ else h.object o := by
  simp only [object, newObject, Array.getElem?_push]
  split <;> rfl

/-- A new object brings no name twice into the heap if its own names differ. -/
lemma nodup_newObject {h : Heap} (hkeys : ∀ o, (h.record o).keys.Nodup) {record : Record Value}
    (hrecord : record.keys.Nodup) (proto : Option ℕ) (o : ℕ) :
    ((h.newObject record proto).2.record o).keys.Nodup := by
  rw [record_eq, object_newObject]
  split_ifs
  · exact hrecord
  · exact hkeys o

lemma object_setRecord (h : Heap) (o : ℕ) (record : Record Value) (p : ℕ) :
    (h.setRecord o record).object p =
      if p = o ∧ o < h.objects.size then ⟨record, h.proto o⟩ else h.object p := by
  by_cases hp : p = o
  · subst hp
    by_cases hlt : p < h.objects.size
    · simp [object, setRecord, proto, Array.getElem_modify, hlt]
    · simp [object, setRecord, hlt]
  · rw [object_setRecord_of_ne _ hp, if_neg fun h => hp h.1]

lemma object_setOwn (h : Heap) (o : ℕ) (key : String) (v : Value) (p : ℕ) :
    (h.setOwn o key v).object p =
      if p = o ∧ o < h.objects.size then ⟨(h.record o).set key v, h.proto o⟩ else h.object p :=
  h.object_setRecord o _ p

/-! ## Heaps that differ behind a veil -/

/-- The heaps differ in nothing but what their objects store under the reflective names. -/
structure Veiled (h k : Heap) : Prop where
  arrays : k.arrays = h.arrays
  closures : k.closures = h.closures
  size : k.objects.size = h.objects.size
  visible : ∀ o, (k.record o).visible = (h.record o).visible
  proto : ∀ o, k.proto o = h.proto o

lemma Veiled.refl (h : Heap) : Veiled h h := ⟨rfl, rfl, rfl, fun _ => rfl, fun _ => rfl⟩

namespace Veiled

variable (hk : h.Veiled k)

include hk

/-! ## Reading -/

lemma symm : k.Veiled h :=
  ⟨hk.arrays.symm, hk.closures.symm, hk.size.symm, fun o => (hk.visible o).symm,
    fun o => (hk.proto o).symm⟩

lemma items (a : ℕ) : k.items a = h.items a := by rw [Heap.items, hk.arrays, Heap.items]

lemma closure? (f : ℕ) : k.closure? f = h.closure? f := by
  rw [Heap.closure?, hk.closures, Heap.closure?]

lemma functionName (f : Callable) : k.functionName f = h.functionName f := by
  cases f with
  | intrinsic => rfl
  | made f => rw [Heap.functionName, hk.closure?, Heap.functionName]

lemma get?_record (hkey : key ∉ reflectiveMembers) (o : ℕ) :
    (k.record o).get? key = (h.record o).get? key := by
  rw [← Record.get?_visible _ hkey, hk.visible, Record.get?_visible _ hkey]

lemma find? (hkey : key ∉ reflectiveMembers) (o : ℕ) : k.find? key o = h.find? key o := by
  induction o using Nat.strongRecOn with
  | ind o ih =>
    rw [Heap.find?, Heap.find?.eq_def h key o, hk.get?_record hkey, hk.proto]
    cases (h.record o).get? key with
    | some v => rfl
    | none =>
      cases h.proto o with
      | none => rfl
      | some p =>
        dsimp only
        split
        · next hlt => exact ih p hlt
        · rfl

lemma get (hkey : key ∉ reflectiveMembers) (o : ℕ) : k.get o key = h.get o key := by
  rw [Heap.get, hk.find? hkey, Heap.get]

lemma getMember (hkey : key ∉ reflectiveMembers) (v : Value) :
    k.getMember v key = h.getMember v key := by
  cases v with
  | object o => exact hk.get hkey o
  | array a => simp only [Heap.getMember, hk.items]
  | function f => simp only [Heap.getMember, functionMember, hk.functionName]
  | _ => rfl

lemma hasMember (hkey : key ∉ reflectiveMembers) (v : Value) :
    k.hasMember v key = h.hasMember v key := by
  cases v with
  | object o => simp only [Heap.hasMember, hk.find? hkey]
  | array a => simp only [Heap.hasMember, hk.items]
  | function f => simp only [Heap.hasMember, functionMember, hk.functionName]
  | _ => rfl

/-- The guard looks at no reflective member. -/
lemma forbidden? (v : Value) : k.forbidden? v = h.forbidden? v := by
  have hvisible : ∀ key ∈ telltaleMembers, key ∉ reflectiveMembers := by decide
  exact forbidden?_eq_of_telltales fun o _ key hkey => hk.get (hvisible key hkey) o

lemma textWithin (n : ℕ) (v : Value) : k.textWithin n v = h.textWithin n v := by
  induction n generalizing v with
  | zero => cases v <;> simp [Heap.textWithin, hk.functionName]
  | succ n ih => cases v <;> simp [Heap.textWithin, hk.functionName, hk.items, ih]

lemma text? (v : Value) : k.text? v = h.text? v := by
  rw [Heap.text?, hk.textWithin, hk.arrays, Heap.text?]

lemma toNumber (v : Value) : k.toNumber v = h.toNumber v := by
  cases v <;> simp [Heap.toNumber, hk.text?]

lemma unary (op : UnaryOp) (v : Value) : k.unary op v = h.unary op v := by
  cases op <;> simp [Heap.unary, hk.toNumber]

lemma binary (op : BinaryOp) (v w : Value) : k.binary op v w = h.binary op v w := by
  have hcomparison : ∀ f g, k.comparison f g v w = h.comparison f g v w := fun f g => by
    unfold comparison
    split <;> simp [hk.toNumber]
  cases op <;> simp [Heap.binary, sum, arithmetic, hcomparison, looseEq?, hk.toNumber, hk.text?]

/-! ## Writing -/

lemma newArray (items : Array Value) : (h.newArray items).2.Veiled (k.newArray items).2 := by
  refine ⟨?_, hk.closures, hk.size, hk.visible, hk.proto⟩
  simp only [Heap.newArray, hk.arrays]

lemma newFunction (closure : Closure) :
    (h.newFunction closure).2.Veiled (k.newFunction closure).2 := by
  refine ⟨hk.arrays, ?_, hk.size, hk.visible, hk.proto⟩
  simp only [Heap.newFunction, hk.closures]

lemma newObject (record : Record Value) (proto : Option ℕ) :
    (h.newObject record proto).2.Veiled (k.newObject record proto).2 := by
  refine ⟨hk.arrays, hk.closures, ?_, fun o => ?_, fun o => ?_⟩
  · simp [Heap.newObject, hk.size]
  · rw [record_eq, record_eq, object_newObject, object_newObject, hk.size]
    split
    · rfl
    · exact hk.visible o
  · rw [proto_eq, proto_eq, object_newObject, object_newObject, hk.size]
    split
    · rfl
    · exact hk.proto o

lemma setItems (a : ℕ) (items : Array Value) :
    (h.setItems a items).Veiled (k.setItems a items) := by
  refine ⟨?_, hk.closures, hk.size, hk.visible, hk.proto⟩
  simp only [Heap.setItems, hk.arrays]

lemma setOwn (o : ℕ) (key : String) (v : Value) : (h.setOwn o key v).Veiled (k.setOwn o key v) := by
  refine ⟨hk.arrays, hk.closures, ?_, fun p => ?_, fun p => ?_⟩
  · simp [Heap.setOwn, setRecord, hk.size]
  · rw [record_eq, record_eq, object_setOwn, object_setOwn, hk.size]
    split
    · by_cases hkey : key ∈ reflectiveMembers
      · simp only [Record.visible_set_reflective _ hkey, hk.visible]
      · simp only [Record.visible_set _ hkey, hk.visible]
    · exact hk.visible p
  · rw [proto_eq, proto_eq, object_setOwn, object_setOwn, hk.size]
    split
    · exact hk.proto o
    · exact hk.proto p

/-- A write is refused in both or in neither, and what it leaves is the same behind the veil. -/
lemma setMember (base : Value) (key : String) (v : Value) :
    Option.Rel (Agree Veiled) (h.setMember base key v) (k.setMember base key v) := by
  have hresult : ∀ (a : ℕ) (x : Except Error (Array Value)),
      Agree Veiled (x.map (h.setItems a ·)) (x.map (k.setItems a ·)) := fun a x => by
    cases x with
    | ok items => exact .ok (hk.setItems a items)
    | error e => exact .error e
  cases base with
  | object o => exact .some (.ok (hk.setOwn o key v))
  | array a =>
    unfold Heap.setMember
    simp only [hk.toNumber, hk.items]
    split
    · cases h.toNumber v with
      | none => exact .none
      | some x =>
        refine .some ?_
        dsimp only
        split
        · exact hresult a _
        · exact .ok hk
    · split
      · exact .some (hresult a _)
      · exact .some (.ok hk)
  | undefined | null => exact .some (.error _)
  | _ => exact .some (.ok hk)

end Veiled

end Heap

end DataBinding
