import DataBinding.Proofs.Ways
import DataBinding.Value.Frozen

/-!
# Values that contain themselves

A container holds other values, and they may hold the container again.  `Heap.Cyclic` says of a
value that a container can be reached from it which contains itself.  Such a value cannot be frozen,
and it is the only kind that cannot (`Heap.freeze?_eq_none_iff`): freezing goes as deep as there are
containers, and a way down that is longer comes to one of them twice.
-/

namespace DataBinding

namespace Heap

variable {h : Heap} {v w : Value} {n : ℕ}

/-! ## What a value holds -/

/-- The values that a container holds: the elements of an array, or the own properties of an
object. -/
def held (h : Heap) : Value → List Value
  | .array a => (h.items a).toList
  | .object o => (h.record o).entries.map Prod.snd
  | _ => []

/-- The first value is a container that holds the second one. -/
def Holds (h : Heap) (v w : Value) : Prop := w ∈ h.held v

/-- A container that contains itself can be reached from the value. -/
def Cyclic (h : Heap) (v : Value) : Prop :=
  ∃ w, Relation.ReflTransGen h.Holds v w ∧ Relation.TransGen h.Holds w w

/-- All arrays and objects of the heap. -/
def containers (h : Heap) : List Value :=
  (List.range h.arrays.size).map .array ++ (List.range h.objects.size).map .object

lemma length_containers (h : Heap) : h.containers.length = h.containerCount := by
  simp [containers, containerCount]

/-- What holds a value is a container of the heap. -/
lemma Holds.mem_containers (hw : h.Holds v w) : v ∈ h.containers := by
  cases v with
  | array a =>
    have ha : a < h.arrays.size := by
      by_contra hge
      simp [Holds, held, items, Array.getElem?_eq_none (Nat.le_of_not_lt hge)] at hw
    simp [containers, ha]
  | object o =>
    have ho : o < h.objects.size := by
      by_contra hge
      simp [Holds, held, record, object, Record.empty,
        Array.getElem?_eq_none (Nat.le_of_not_lt hge)] at hw
    simp [containers, ho]
  | _ => cases hw

/-! ## Ways down -/

/-- From the value there is a way so many levels down that comes to an array or to an object. -/
inductive Nested (h : Heap) : ℕ → Value → Prop
  | array (a : ℕ) : Nested h 0 (.array a)
  | object (o : ℕ) : Nested h 0 (.object o)
  | down {n : ℕ} {v w : Value} (hw : h.Holds v w) (hrest : Nested h n w) : Nested h (n + 1) v

lemma nested_iff_way : h.Nested n v ↔ Way h.Holds (h.Nested 0) n v := by
  constructor
  · intro hn
    induction hn with
    | array a => exact .here (.array a)
    | object o => exact .here (.object o)
    | down hw _ ih => exact .step hw ih
  · intro hway
    induction hway with
    | here hx => exact hx
    | step hxy _ ih => exact .down hxy ih

lemma Nested.succ_iff : h.Nested (n + 1) v ↔ ∃ w, h.Holds v w ∧ h.Nested n w := by
  simp only [nested_iff_way (n := n + 1), nested_iff_way (n := n), Way.succ_iff]

lemma mapM_eq_none_iff {α β : Type} {f : α → Option β} {l : List α} :
    l.mapM f = none ↔ ∃ a ∈ l, f a = none := by
  induction l with
  | nil => simp
  | cons a l ih => cases hf : f a <;> cases hl : l.mapM f <;> simp_all

lemma bind_some_eq_none_iff {α β : Type} {x : Option α} {f : α → β} :
    (x >>= fun a => some (f a)) = none ↔ x = none := by
  cases x <;> simp

/-- A value cannot be frozen within a depth just if there is a way that many levels down. -/
lemma freezeWithin_eq_none_iff : h.freezeWithin n v = none ↔ h.Nested n v := by
  induction n generalizing v with
  | zero =>
    cases v with
    | array a => exact iff_of_true rfl (.array a)
    | object o => exact iff_of_true rfl (.object o)
    | _ => exact iff_of_false (fun h => nomatch h) (fun h => nomatch h)
  | succ n ih =>
    rw [Nested.succ_iff]
    cases v with
    | array a =>
      refine bind_some_eq_none_iff.trans (mapM_eq_none_iff.trans ?_)
      simp only [ih, Holds, held]
    | object o =>
      refine bind_some_eq_none_iff.trans (mapM_eq_none_iff.trans ?_)
      constructor
      · rintro ⟨⟨key, w⟩, hmem, hw⟩
        exact ⟨w, List.mem_map_of_mem hmem, ih.1 (bind_some_eq_none_iff.1 hw)⟩
      · rintro ⟨w, hmem, hw⟩
        obtain ⟨⟨key, x⟩, hx, rfl⟩ := List.mem_map.1 hmem
        exact ⟨(key, x), hx, bind_some_eq_none_iff.2 (ih.2 hw)⟩
    | _ => exact iff_of_false (fun h => nomatch h) (fun ⟨_, hw, _⟩ => nomatch hw)

/-- What holds a value is an array or an object. -/
lemma Holds.nested (hw : h.Holds v w) : h.Nested 0 v := by
  cases v with
  | array a => exact .array a
  | object o => exact .object o
  | _ => cases hw

/-- A way down that is longer than there are containers comes to one that contains itself. -/
lemma Nested.cyclic (hn : h.Nested n v) (hlt : h.containerCount < n) : h.Cyclic v :=
  (nested_iff_way.1 hn).loops (fun _ _ hw => hw.mem_containers) (h.length_containers ▸ hlt)

/-- From a value that contains itself there are ways any number of levels down. -/
lemma Cyclic.nested (hv : h.Cyclic v) (n : ℕ) : h.Nested n v :=
  nested_iff_way.2 (Loops.way (fun _ _ hw => hw.nested) hv n)

/-- A value cannot be frozen just if a container that contains itself can be reached from it. -/
theorem freeze?_eq_none_iff : h.freeze? v = none ↔ h.Cyclic v := by
  rw [freeze?, freezeWithin_eq_none_iff]
  exact ⟨fun hn => hn.cyclic (Nat.lt_succ_self _), fun hv => hv.nested _⟩

end Heap

end DataBinding
