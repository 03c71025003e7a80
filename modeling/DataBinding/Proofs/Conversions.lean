import DataBinding.Evaluation
import DataBinding.Proofs.Depth

/-!
# Conversions without end

Operators, computed member names and lengths convert values to texts and to numbers, and a
conversion has no end just if it meets an array from which one comes to an array that contains
itself (`Loops h.Lists`).  Which operands an operator converts is `UnaryOp.converted` and
`BinaryOp.converted`.
-/

namespace DataBinding

/-! ## Texts and numbers -/

namespace Heap

variable {h : Heap} {v w : Value}

lemma isArray_of_loops (hv : Loops h.Lists v) : IsArray v := by
  obtain ⟨w, hw, -⟩ := hv.step
  exact hw.isArray

/-- A value has no text just if it is an array from which one comes to an array that contains
itself. -/
lemma text?_eq_none_iff : h.text? v = none ↔ Loops h.Lists v := by
  constructor
  · intro hnone
    exact (textWithin_eq_none_iff.1 hnone).loops (fun _ _ hw => hw.mem_arrayValues)
      (by simp [arrayValues])
  · intro hloops
    exact textWithin_eq_none_iff.2 (hloops.way (fun _ _ hw => hw.isArray) _)

lemma toNumber_eq_none_iff : h.toNumber v = none ↔ Loops h.Lists v := by
  cases v with
  | array a => rw [toNumber, Option.map_eq_none_iff, text?_eq_none_iff]
  | _ => exact iff_of_false nofun fun hloops => nomatch isArray_of_loops hloops

lemma loops_orZero_iff : Loops h.Lists v.orZero ↔ Loops h.Lists v := by
  cases v with
  | undefined =>
    exact iff_of_false (fun hloops => nomatch isArray_of_loops hloops)
      fun hloops => nomatch isArray_of_loops hloops
  | _ => exact Iff.rfl

lemma arithmetic_eq_none_iff {f : Float → Float → Float} :
    h.arithmetic f v w = none ↔ Loops h.Lists v ∨ Loops h.Lists w := by
  rw [← toNumber_eq_none_iff, ← toNumber_eq_none_iff, arithmetic]
  cases h.toNumber v <;> cases h.toNumber w <;> simp

lemma sum_eq_none_iff : h.sum v w = none ↔ Loops h.Lists v ∨ Loops h.Lists w := by
  rw [← loops_orZero_iff (v := v), ← loops_orZero_iff (v := w)]
  simp only [sum]
  split
  · rw [← text?_eq_none_iff, ← text?_eq_none_iff]
    cases h.text? v.orZero <;> cases h.text? w.orZero <;> simp
  · exact arithmetic_eq_none_iff

lemma comparison_eq_none_iff {f : String → String → Bool} {g : Float → Float → Bool} :
    h.comparison f g v w = none ↔ Loops h.Lists v ∨ Loops h.Lists w := by
  rw [← toNumber_eq_none_iff, ← toNumber_eq_none_iff]
  unfold comparison
  split
  · simp [toNumber]
  · cases h.toNumber v <;> cases h.toNumber w <;> simp

lemma numeric_isContainer (v : Value) : (numeric v).isContainer = v.isContainer := by
  cases v <;> rfl

lemma loops_numeric_iff : Loops h.Lists (numeric v) ↔ Loops h.Lists v := by
  cases v with
  | bool b =>
    exact iff_of_false (fun hloops => nomatch isArray_of_loops hloops)
      fun hloops => nomatch isArray_of_loops hloops
  | _ => exact Iff.rfl

end Heap

/-! ## Operators -/

/-- The operands that a unary operator converts to a number. -/
def UnaryOp.converted : UnaryOp → Value → List Value
  | .plus, v | .minus, v => [v]
  | .not, _ => []

/-- The operands that a binary operator converts to a text or to a number. -/
def BinaryOp.converted : BinaryOp → Value → Value → List Value
  | .strictEq, _, _ | .strictNotEq, _, _ => []
  | .eq, v, w | .notEq, v, w =>
    if v.isNullish || w.isNullish || v.isContainer == w.isContainer then [] else [v, w]
  | _, v, w => [v, w]

lemma UnaryOp.eq_of_mem_converted {op : UnaryOp} {v x : Value} (hx : x ∈ op.converted v) :
    x = v := by
  cases op <;> simp_all [converted]

lemma BinaryOp.eq_or_eq_of_mem_converted {op : BinaryOp} {v w x : Value}
    (hx : x ∈ op.converted v w) : x = v ∨ x = w := by
  cases op with
  | strictEq | strictNotEq => cases hx
  | eq | notEq =>
    rw [converted] at hx
    split at hx
    · cases hx
    · simpa using hx
  | _ => simpa [converted] using hx

namespace Heap

variable {h : Heap} {v w : Value}

lemma unary_eq_none_iff {op : UnaryOp} :
    h.unary op v = none ↔ ∃ x ∈ op.converted v, Loops h.Lists x := by
  cases op with
  | not => simp [unary, UnaryOp.converted]
  | _ =>
    simp only [unary, UnaryOp.converted, Option.map_eq_none_iff, toNumber_eq_none_iff,
      loops_orZero_iff, List.mem_singleton, exists_eq_left]

lemma looseEq?_eq_none_iff : h.looseEq? v w = none ↔
    (v.isNullish || w.isNullish || v.isContainer == w.isContainer) = false ∧
      (Loops h.Lists v ∨ Loops h.Lists w) := by
  have hflat : ∀ {x : Value}, x.isContainer = false → ¬ Loops h.Lists x := fun hx hloops => by
    obtain ⟨a, rfl⟩ := isArray_of_loops hloops
    cases hx
  unfold looseEq?
  cases hnullish : v.isNullish || w.isNullish with
  | true => simp
  | false =>
    simp only [Bool.false_eq_true, if_false, Bool.false_or, numeric_isContainer]
    cases hv : v.isContainer <;> cases hw : w.isContainer
    · simp
    · simp [text?_eq_none_iff, loops_numeric_iff, hflat hv]
    · simp [text?_eq_none_iff, loops_numeric_iff, hflat hw]
    · simp

lemma binary_eq_none_iff {op : BinaryOp} :
    h.binary op v w = none ↔ ∃ x ∈ op.converted v w, Loops h.Lists x := by
  have hpair : (∃ x ∈ [v, w], Loops h.Lists x) ↔ Loops h.Lists v ∨ Loops h.Lists w := by simp
  cases op with
  | add => exact sum_eq_none_iff.trans hpair.symm
  | sub =>
    refine arithmetic_eq_none_iff.trans (Iff.trans ?_ hpair.symm)
    rw [loops_orZero_iff, loops_orZero_iff]
  | mul | div | rem => exact arithmetic_eq_none_iff.trans hpair.symm
  | lt | gt | ltEq | gtEq => exact comparison_eq_none_iff.trans hpair.symm
  | strictEq | strictNotEq => simp [binary, BinaryOp.converted]
  | eq | notEq =>
    rw [binary, Option.map_eq_none_iff, looseEq?_eq_none_iff, BinaryOp.converted]
    split
    · next hsame => simp [hsame]
    · next hdiffer => rw [hpair, Bool.eq_false_iff, and_iff_right hdiffer]

/-- A write has no end just if it would make the length of an array of such a value. -/
lemma setMember_eq_none_iff {base : Value} {key : String} :
    h.setMember base key v = none ↔ IsArray base ∧ key = "length" ∧ Loops h.Lists v := by
  cases base with
  | array a =>
    rw [and_iff_right ⟨a, rfl⟩, ← toNumber_eq_none_iff]
    unfold setMember
    by_cases hkey : key = "length"
    · simp [hkey]
    · simp only [hkey, if_false, false_and, iff_false]
      split <;> exact Option.some_ne_none _
  | _ =>
    refine iff_of_false (Option.some_ne_none _) fun h => ?_
    obtain ⟨a, ha⟩ := h.1
    cases ha

end Heap

end DataBinding
