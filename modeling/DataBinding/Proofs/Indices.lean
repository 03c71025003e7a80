import DataBinding.Heap.Member
import Mathlib.Data.List.Basic
import Mathlib.Order.Nat
import Mathlib.Tactic.Common

/-!
# Keys that denote elements

Which keys of an array denote an element, and which one (`IndexText`, `indexOfKey?_eq_some_iff`).
The decimal digits of a machine integer do, and no other run of digits: a leading zero is refused.
But a plus sign may stand in front, and behind it zeros may lead.  So an element has more keys than
one (`plus_key_denotes`).

Reading, asking for and writing a member of an array all go by this, and leave other keys alone
(`Heap.array_member_cases`).
-/

namespace DataBinding

/-! ## Digits -/

lemma digitsValue_toDigits (n : ℕ) : digitsValue (Nat.toDigits 10 n) = n :=
  Nat.ofDigitChars_ten_toDigits

lemma isDigit_of_mem_toDigits {n : ℕ} {c : Char} (hc : c ∈ Nat.toDigits 10 n) :
    c.isDigit = true :=
  Nat.isDigit_of_mem_toDigits (by decide) (by decide) hc

/-- A digit is the one that is written for its value. -/
lemma digitChar_of_isDigit {c : Char} (hc : c.isDigit = true) :
    c.toNat - 48 < 10 ∧ Nat.digitChar (c.toNat - 48) = c := by
  have hbounds : 48 ≤ c.toNat ∧ c.toNat ≤ 57 := by
    rw [Char.isDigit, Bool.and_eq_true, decide_eq_true_iff, decide_eq_true_iff] at hc
    exact hc
  have hlt : c.toNat - 48 < 10 := by omega
  refine ⟨hlt, Char.toNat_inj.1 ?_⟩
  rw [Nat.toNat_digitChar_of_lt_ten hlt]
  omega

/-- A positive number has no leading zero. -/
lemma head?_toDigits {n : ℕ} (hn : 0 < n) : (Nat.toDigits 10 n).head? ≠ some '0' := by
  induction n using Nat.base_induction 10 (by decide) with
  | single m hm =>
    rw [Nat.toDigits_of_lt_base hm, List.head?_cons, Ne, Option.some_inj, Nat.digitChar_eq_zero]
    exact hn.ne'
  | digit m k hk hm ih =>
    rw [← Nat.toDigits_append_toDigits (by decide) hm hk, List.head?_append_of_ne_nil]
    · exact ih hm
    · exact Nat.toDigits_ne_nil

/-- Digits behind those of a positive number are the digits of a number. -/
lemma toDigits_append_digits {n : ℕ} (hn : 0 < n) {cs : List Char}
    (hcs : ∀ c ∈ cs, c.isDigit = true) :
    Nat.toDigits 10 n ++ cs = Nat.toDigits 10 (Nat.ofDigitChars 10 cs n) := by
  induction cs generalizing n with
  | nil => rw [List.append_nil, Nat.ofDigitChars_nil]
  | cons c cs ih =>
    obtain ⟨hlt, hchar⟩ := digitChar_of_isDigit (hcs c (.head _))
    have hstep : Nat.toDigits 10 n ++ [c] = Nat.toDigits 10 (10 * n + (c.toNat - 48)) := by
      rw [← Nat.toDigits_append_toDigits (by decide) hn hlt, Nat.toDigits_of_lt_base hlt, hchar]
    calc Nat.toDigits 10 n ++ c :: cs = (Nat.toDigits 10 n ++ [c]) ++ cs := by simp
      _ = Nat.toDigits 10 (10 * n + (c.toNat - 48)) ++ cs := by rw [hstep]
      _ = Nat.toDigits 10 (Nat.ofDigitChars 10 (c :: cs) n) := by
        rw [ih (by omega) fun c hc => hcs c (.tail _ hc), Nat.ofDigitChars_cons]
        rfl

/-- Digits of which the first is not a zero, unless it is the only one, are those that are written
for their value. -/
lemma toDigits_digitsValue {c : Char} {cs : List Char} (hdigits : ∀ d ∈ c :: cs, d.isDigit = true)
    (hzero : c = '0' → cs = []) : Nat.toDigits 10 (digitsValue (c :: cs)) = c :: cs := by
  obtain ⟨hlt, hchar⟩ := digitChar_of_isDigit (hdigits c (.head _))
  have hone : Nat.toDigits 10 (c.toNat - 48) = [c] := by rw [Nat.toDigits_of_lt_base hlt, hchar]
  have hvalue : digitsValue (c :: cs) = Nat.ofDigitChars 10 cs (c.toNat - 48) := by
    have hcons : Nat.ofDigitChars 10 (c :: cs) 0 =
        Nat.ofDigitChars 10 cs (10 * 0 + (c.toNat - '0'.toNat)) := Nat.ofDigitChars_cons
    refine hcons.trans ?_
    rw [Nat.mul_zero, Nat.zero_add]
    rfl
  rw [hvalue]
  rcases Nat.eq_zero_or_pos (c.toNat - 48) with heq | hpos
  · have hc : c = '0' := by rw [← hchar, heq, Nat.digitChar_eq_zero]
    rw [hzero hc, Nat.ofDigitChars_nil, hone]
  · rw [← toDigits_append_digits hpos fun d hd => hdigits d (.tail _ hd), hone]
    rfl

/-! ## Keys -/

/-- The texts that denote an index: the decimal digits of a machine integer, and a plus sign with
any digits behind it that have such a value. -/
inductive IndexText : String → ℕ → Prop
  | decimal {i : ℕ} (hi : i < machineBound) : IndexText (Nat.repr i) i
  | plus {digits : List Char} (hne : digits ≠ []) (hdigits : ∀ c ∈ digits, c.isDigit = true)
    (hi : digitsValue digits < machineBound) :
    IndexText (String.ofList ('+' :: digits)) (digitsValue digits)

lemma leadingZero_iff {c : Char} {cs : List Char} :
    ((c :: cs).length > 1 ∧ (c :: cs).head? = some '0') ↔ c = '0' ∧ cs ≠ [] := by
  rw [List.head?_cons, Option.some_inj, List.length_cons, and_comm]
  refine and_congr_right fun _ => ?_
  rw [gt_iff_lt, Nat.lt_add_left_iff_pos, List.length_pos_iff]

/-- Behind a plus sign any digits are read, also leading zeros. -/
lemma indexOfKey?_plus (digits : List Char) : indexOfKey? (String.ofList ('+' :: digits)) =
    if digits ≠ [] ∧ digits.all Char.isDigit ∧ digitsValue digits < machineBound then
      some (digitsValue digits)
    else none := by
  have hnot : ¬ (('+' :: digits).length > 1 ∧ ('+' :: digits).head? = some '0') :=
    fun h => absurd (leadingZero_iff.1 h).1 (by decide)
  rw [indexOfKey?]
  simp only [String.toList_ofList]
  rw [if_neg hnot]

/-- Without a plus sign digits are read, but none behind a leading zero. -/
lemma indexOfKey?_of_ne_plus {c : Char} (hc : c ≠ '+') (cs : List Char) :
    indexOfKey? (String.ofList (c :: cs)) =
      if c = '0' ∧ cs ≠ [] then none
      else if (c :: cs).all Char.isDigit ∧ digitsValue (c :: cs) < machineBound then
        some (digitsValue (c :: cs))
      else none := by
  rw [indexOfKey?]
  simp only [String.toList_ofList, leadingZero_iff]
  refine if_congr Iff.rfl rfl ?_
  split
  · next heq => exact absurd (List.cons.inj heq).1 hc
  · exact if_congr (and_iff_right (List.cons_ne_nil c cs)) rfl rfl

/-- A key that denotes an index is read as it. -/
lemma IndexText.indexOfKey?_eq {key : String} {i : ℕ} (h : IndexText key i) :
    indexOfKey? key = some i := by
  cases h with
  | @decimal i hi =>
    rw [Nat.repr_eq_ofList_toDigits]
    cases hdigits : Nat.toDigits 10 i with
    | nil => exact absurd hdigits Nat.toDigits_ne_nil
    | cons c cs =>
      have hmem : ∀ d ∈ c :: cs, d.isDigit = true := fun d hd =>
        isDigit_of_mem_toDigits (hdigits ▸ hd)
      have hvalue : digitsValue (c :: cs) = i := by rw [← hdigits, digitsValue_toDigits]
      have hplus : c ≠ '+' := by
        rintro rfl
        cases hmem '+' (.head _)
      have hzero : ¬ (c = '0' ∧ cs ≠ []) := by
        rintro ⟨rfl, hne⟩
        obtain rfl | hpos := Nat.eq_zero_or_pos i
        · exact hne (List.cons.inj hdigits).2.symm
        · exact head?_toDigits hpos (congrArg List.head? hdigits)
      rw [← hvalue] at hi ⊢
      rw [indexOfKey?_of_ne_plus hplus, if_neg hzero, if_pos ⟨List.all_eq_true.2 hmem, hi⟩]
  | plus hne hdigits hi =>
    rw [indexOfKey?_plus, if_pos ⟨hne, List.all_eq_true.2 hdigits, hi⟩]

/-- Reading a key as an index is to find the index that it denotes. -/
theorem indexOfKey?_eq_some_iff {key : String} {i : ℕ} :
    indexOfKey? key = some i ↔ IndexText key i := by
  refine ⟨fun h => ?_, IndexText.indexOfKey?_eq⟩
  obtain ⟨cs, rfl⟩ : ∃ cs, key = String.ofList cs := ⟨key.toList, String.ofList_toList.symm⟩
  cases cs with
  | nil => cases h
  | cons c cs =>
    by_cases hc : c = '+'
    · subst hc
      rw [indexOfKey?_plus, Option.ite_none_right_eq_some] at h
      obtain ⟨⟨hne, hdigits, hlt⟩, hvalue⟩ := h
      cases hvalue
      exact .plus hne (List.all_eq_true.1 hdigits) hlt
    · rw [indexOfKey?_of_ne_plus hc, Option.ite_none_left_eq_some,
        Option.ite_none_right_eq_some] at h
      obtain ⟨hzero, ⟨hdigits, hlt⟩, hvalue⟩ := h
      cases hvalue
      have hone : c = '0' → cs = [] := fun hc => not_not.1 fun hne => hzero ⟨hc, hne⟩
      have hrepr := IndexText.decimal hlt
      rwa [Nat.repr_eq_ofList_toDigits,
        toDigits_digitsValue (List.all_eq_true.1 hdigits) hone] at hrepr

/-- A key denotes one index at most. -/
lemma IndexText.unique {key : String} {i j : ℕ} (hi : IndexText key i) (hj : IndexText key j) :
    i = j :=
  Option.some.inj (hi.indexOfKey?_eq.symm.trans hj.indexOfKey?_eq)

/-! ## Members -/

namespace Heap

/-- A key of an array other than its length is read, asked for and written as the one index that it
denotes, if it denotes one.  With any other key nothing is found and nothing is changed. -/
theorem array_member_cases (h : Heap) (a : ℕ) {key : String} (hkey : key ≠ "length") :
    (∃ i, IndexText key i ∧ (∀ j, IndexText key j → j = i) ∧
      h.getMember (.array a) key = (h.items a)[i]?.getD .undefined ∧
      h.hasMember (.array a) key = decide (i < (h.items a).size) ∧
      ∀ x, h.setMember (.array a) key x =
        some ((writeItem (h.items a) i x).map (h.setItems a ·))) ∨
    (∀ i, ¬ IndexText key i) ∧ h.getMember (.array a) key = .undefined ∧
      h.hasMember (.array a) key = false ∧
      ∀ x, h.setMember (.array a) key x = some (.ok h) := by
  cases hindex : indexOfKey? key with
  | some i =>
    have hi := indexOfKey?_eq_some_iff.1 hindex
    refine .inl ⟨i, hi, fun j hj => hj.unique hi, ?_, ?_, fun x => ?_⟩
    · simp [getMember, hkey, hindex]
    · simp [hasMember, hkey, hindex]
    · simp [setMember, hkey, hindex]
  | none =>
    refine .inr ⟨fun i hi => ?_, ?_, ?_, fun x => ?_⟩
    · rw [hi.indexOfKey?_eq] at hindex
      cases hindex
    · simp [getMember, hkey, hindex]
    · simp [hasMember, hkey, hindex]
    · simp [setMember, hkey, hindex]

/-- An array with one element. -/
def pebble : Heap := ⟨#[#[.string "stone"]], #[], #[]⟩

/-- A key with a sign and leading zeros reads the element. -/
theorem pebble_members : "+00" ≠ "length" ∧
    pebble.getMember (.array 0) "+00" = .string "stone" := by
  have hne : "+00" ≠ "length" := by decide
  refine ⟨hne, ?_⟩
  have hkey : IndexText "+00" 0 := indexOfKey?_eq_some_iff.1 (by decide)
  obtain ⟨i, -, hunique, hget, -⟩ | ⟨hnot, -⟩ := pebble.array_member_cases 0 hne
  · rw [hget, ← hunique 0 hkey]
    rfl
  · exact absurd hkey (hnot 0)

/-- A key that is not written like any number denotes the element all the same. -/
theorem plus_key_denotes : (∀ i, "+0" ≠ Nat.repr i) ∧
    pebble.getMember (.array 0) "+0" = .string "stone" ∧
    pebble.hasMember (.array 0) "+0" = true ∧
    ∃ h, pebble.setMember (.array 0) "+0" .null = some (.ok h) ∧ h.items 0 = #[.null] := by
  refine ⟨fun i heq => ?_, by rfl, by rfl, _, by rfl, by rfl⟩
  have hplus : '+' ∈ (Nat.repr i).toList := heq ▸ by decide
  rw [Nat.toList_repr] at hplus
  cases isDigit_of_mem_toDigits hplus

end Heap

end DataBinding
