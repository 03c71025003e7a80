import DataBinding.Proofs.Cycles
import DataBinding.Value.Text

/-!
# Looking deep enough

The text of a value and its frozen form are looked for down to a depth that depends on the number of
containers in the heap.  To look deeper finds the same (`Heap.textWithin_of_le`,
`Heap.freezeWithin_of_le`): what is found stays found, and what is not found at that depth contains
itself and is found at none.
-/

namespace DataBinding

namespace Heap

variable {h : Heap} {v w : Value} {n m : ℕ}

lemma mapM_cons_cases {α β : Type} {g : α → Option β} {a : α} {l : List α} {bs : List β}
    (hl : (a :: l).mapM g = some bs) :
    ∃ b cs, bs = b :: cs ∧ g a = some b ∧ l.mapM g = some cs := by
  rw [List.mapM_cons] at hl
  obtain ⟨b, hb, hrest⟩ := Option.bind_eq_some_iff.1 hl
  obtain ⟨cs, hcs, hend⟩ := Option.bind_eq_some_iff.1 hrest
  cases hend
  exact ⟨b, cs, rfl, hb, hcs⟩

lemma mapM_eq_some_of_imp {α β : Type} {f g : α → Option β} {l : List α} {bs : List β}
    (himp : ∀ a ∈ l, ∀ b, f a = some b → g a = some b) (hf : l.mapM f = some bs) :
    l.mapM g = some bs := by
  induction l generalizing bs with
  | nil => exact hf
  | cons a l ih =>
    obtain ⟨b, cs, rfl, hb, hcs⟩ := mapM_cons_cases hf
    rw [List.mapM_cons, himp a (.head _) b hb, ih (fun a ha => himp a (.tail _ ha)) hcs]
    rfl

/-! ## Texts -/

/-- The value is an array. -/
def IsArray (v : Value) : Prop := ∃ a, v = .array a

/-- The first value is an array that has the second one among its elements. -/
def Lists (h : Heap) (v w : Value) : Prop := ∃ a, v = .array a ∧ w ∈ (h.items a).toList

lemma Lists.isArray (hw : h.Lists v w) : IsArray v := hw.imp fun _ h => h.1

/-- All arrays of the heap. -/
def arrayValues (h : Heap) : List Value := (List.range h.arrays.size).map .array

lemma Lists.mem_arrayValues (hw : h.Lists v w) : v ∈ h.arrayValues := by
  obtain ⟨a, rfl, hw⟩ := hw
  have ha : a < h.arrays.size := by
    by_contra hge
    simp [items, Array.getElem?_eq_none (Nat.le_of_not_lt hge)] at hw
  simp [arrayValues, ha]

lemma textWithin_succ_array (h : Heap) (n a : ℕ) : h.textWithin (n + 1) (.array a) =
    ((h.items a).toList.mapM fun v : Value =>
      if v.isNullish then some "" else h.textWithin n v).map (",".intercalate ·) := by
  rw [textWithin, Option.map_eq_bind]
  rfl

lemma textWithin_of_not_array (hv : ¬ IsArray v) : h.textWithin n v = h.textWithin 0 v := by
  cases v with
  | array a => exact absurd ⟨a, rfl⟩ hv
  | _ => cases n <;> rfl

/-- A text is not found within a depth just if there is a way that many arrays down. -/
lemma textWithin_eq_none_iff : h.textWithin n v = none ↔ Way h.Lists IsArray n v := by
  induction n generalizing v with
  | zero =>
    constructor
    · intro hnone
      cases v with
      | array a => exact .here ⟨a, rfl⟩
      | _ => cases hnone
    · rintro (⟨a, rfl⟩ | _)
      rfl
  | succ n ih =>
    rw [Way.succ_iff]
    by_cases hv : IsArray v
    · obtain ⟨a, rfl⟩ := hv
      rw [textWithin_succ_array, Option.map_eq_none_iff, mapM_eq_none_iff]
      constructor
      · rintro ⟨w, hw, hnone⟩
        split at hnone
        · cases hnone
        · exact ⟨w, ⟨a, rfl, hw⟩, ih.1 hnone⟩
      · rintro ⟨w, ⟨b, hab, hw⟩, hway⟩
        cases hab
        refine ⟨w, hw, ?_⟩
        obtain ⟨b, rfl⟩ : IsArray w := by
          cases hway with
          | here hw => exact hw
          | step hw _ => exact hw.isArray
        exact ih.2 hway
    · refine iff_of_false (fun hnone => ?_) fun ⟨_, hw, _⟩ => hv hw.isArray
      rw [textWithin_of_not_array hv] at hnone
      cases v with
      | array a => exact hv ⟨a, rfl⟩
      | _ => cases hnone

/-- A text that is found is found when one looks deeper, too. -/
lemma textWithin_succ {s : String} (hs : h.textWithin n v = some s) :
    h.textWithin (n + 1) v = some s := by
  induction n generalizing v s with
  | zero =>
    cases v with
    | array a => cases hs
    | _ => exact hs
  | succ n ih =>
    by_cases hv : IsArray v
    · obtain ⟨a, rfl⟩ := hv
      rw [textWithin_succ_array, Option.map_eq_some_iff] at hs ⊢
      obtain ⟨parts, hparts, hjoin⟩ := hs
      refine ⟨parts, mapM_eq_some_of_imp (fun w _ s hs => ?_) hparts, hjoin⟩
      split at hs
      · next hnullish => rwa [if_pos hnullish]
      · next hnullish =>
        rw [if_neg hnullish]
        exact ih hs
    · rwa [textWithin_of_not_array hv, ← textWithin_of_not_array hv]

lemma textWithin_mono {s : String} (hs : h.textWithin n v = some s) (hle : n ≤ m) :
    h.textWithin m v = some s := by
  induction hle with
  | refl => exact hs
  | step _ ih => exact textWithin_succ ih

/-- To look deeper than there are arrays finds the same text. -/
theorem textWithin_of_le (hle : h.arrays.size + 1 ≤ n) (v : Value) :
    h.textWithin n v = h.text? v := by
  cases htext : h.text? v with
  | some s => exact textWithin_mono htext hle
  | none =>
    have hloops : Loops h.Lists v := (textWithin_eq_none_iff.1 htext).loops
      (fun _ _ hw => hw.mem_arrayValues) (by simp [arrayValues])
    exact textWithin_eq_none_iff.2 (hloops.way (fun _ _ hw => hw.isArray) n)

/-! ## Frozen values -/

/-- What is found is found when one looks deeper, too. -/
lemma freezeWithin_succ {f : Frozen} (hf : h.freezeWithin n v = some f) :
    h.freezeWithin (n + 1) v = some f := by
  induction n generalizing v f with
  | zero =>
    cases v with
    | array a => cases hf
    | object o => cases hf
    | _ => exact hf
  | succ n ih =>
    cases v with
    | array a =>
      obtain ⟨items, hitems, hend⟩ := Option.bind_eq_some_iff.1 hf
      exact Option.bind_eq_some_iff.2
        ⟨items, mapM_eq_some_of_imp (fun _ _ _ hf => ih hf) hitems, hend⟩
    | object o =>
      obtain ⟨entries, hentries, hend⟩ := Option.bind_eq_some_iff.1 hf
      refine Option.bind_eq_some_iff.2 ⟨entries, mapM_eq_some_of_imp ?_ hentries, hend⟩
      rintro ⟨key, w⟩ - b hb
      obtain ⟨f, hf, hend⟩ := Option.bind_eq_some_iff.1 hb
      exact Option.bind_eq_some_iff.2 ⟨f, ih hf, hend⟩
    | _ => exact hf

lemma freezeWithin_mono {f : Frozen} (hf : h.freezeWithin n v = some f) (hle : n ≤ m) :
    h.freezeWithin m v = some f := by
  induction hle with
  | refl => exact hf
  | step _ ih => exact freezeWithin_succ ih

/-- To look deeper than there are containers finds the same frozen form. -/
theorem freezeWithin_of_le (hle : h.containerCount + 1 ≤ n) (v : Value) :
    h.freezeWithin n v = h.freeze? v := by
  cases hfreeze : h.freeze? v with
  | some f => exact freezeWithin_mono hfreeze hle
  | none => exact freezeWithin_eq_none_iff.2 ((freeze?_eq_none_iff.1 hfreeze).nested n)

end Heap

end DataBinding
