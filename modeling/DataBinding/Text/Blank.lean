/-!
# Blank characters and trimming

The characters with the Unicode property `White_Space`, and texts with the blanks at their ends
taken off.  Trimming decides which source texts share one compiled expression and which texts
read as numbers.

`trim` drops blanks only (`exists_eq_trimmed`), and a trimmed text neither begins nor ends with a
blank.  That is all there is to it: a text is what a source is trimmed to just if it is like that
and the rest of the source is blank (`trim_eq_iff`).
-/

namespace DataBinding.Text

/-- The Unicode property `White_Space`. -/
def isBlank (c : Char) : Bool :=
  let n := c.toNat
  (0x9 ≤ n && n ≤ 0xd) || n == 0x20 || n == 0x85 || n == 0xa0 || n == 0x1680 ||
    (0x2000 ≤ n && n ≤ 0x200a) || n == 0x2028 || n == 0x2029 || n == 0x202f ||
    n == 0x205f || n == 0x3000

/-- `cs` without the blanks it begins with. -/
def trimmedStart (cs : List Char) : List Char := cs.dropWhile isBlank

/-- `cs` without the blanks it ends with. -/
def trimmedEnd (cs : List Char) : List Char := (trimmedStart cs.reverse).reverse

/-- `cs` without the blanks at either end. -/
def trimmed (cs : List Char) : List Char := trimmedEnd (trimmedStart cs)

/-- `s` without the blanks it begins with. -/
def trimStart (s : String) : String := String.ofList (trimmedStart s.toList)

/-- `s` without the blanks at either end. -/
def trim (s : String) : String := String.ofList (trimmed s.toList)

/-! ## What trimming removes -/

theorem exists_eq_trimmedStart (cs : List Char) :
    ∃ front, cs = front ++ trimmedStart cs ∧ ∀ c ∈ front, isBlank c = true :=
  ⟨cs.takeWhile isBlank, List.takeWhile_append_dropWhile.symm,
    List.all_eq_true.1 List.all_takeWhile⟩

theorem exists_eq_trimmedEnd (cs : List Char) :
    ∃ back, cs = trimmedEnd cs ++ back ∧ ∀ c ∈ back, isBlank c = true := by
  obtain ⟨front, h, hb⟩ := exists_eq_trimmedStart cs.reverse
  refine ⟨front.reverse, ?_, fun c hc => hb c (List.mem_reverse.1 hc)⟩
  simpa [trimmedEnd] using congrArg List.reverse h

/-- Only blanks are lost. -/
theorem exists_eq_trimmed (cs : List Char) :
    ∃ front back, cs = front ++ trimmed cs ++ back ∧
      (∀ c ∈ front, isBlank c = true) ∧ ∀ c ∈ back, isBlank c = true := by
  obtain ⟨front, h, hf⟩ := exists_eq_trimmedStart cs
  obtain ⟨back, h', hb⟩ := exists_eq_trimmedEnd (trimmedStart cs)
  refine ⟨front, back, ?_, hf, hb⟩
  rw [List.append_assoc]
  exact h.trans (congrArg (front ++ ·) h')

/-! ## What trimming comes to -/

theorem isBlank_of_mem_head?_trimmedStart (cs : List Char) :
    ∀ c ∈ (trimmedStart cs).head?, isBlank c = false := by
  intro c hc
  have hhead := List.head?_dropWhile_not isBlank cs
  rw [← trimmedStart, hc] at hhead
  exact hhead

/-- Nothing but the blanks in front goes. -/
theorem trimmedStart_append {front cs : List Char} (hfront : ∀ c ∈ front, isBlank c = true)
    (hcs : ∀ c ∈ cs.head?, isBlank c = false) : trimmedStart (front ++ cs) = cs := by
  rw [trimmedStart, List.dropWhile_append_of_pos hfront]
  cases cs with
  | nil => rfl
  | cons c cs => exact List.dropWhile_cons_of_neg (by simp [hcs c rfl])

/-- Nothing but the blanks behind goes. -/
theorem trimmedEnd_append {cs back : List Char} (hcs : ∀ c ∈ cs.getLast?, isBlank c = false)
    (hback : ∀ c ∈ back, isBlank c = true) : trimmedEnd (cs ++ back) = cs := by
  rw [trimmedEnd, List.reverse_append, trimmedStart_append (fun c hc => hback c (by simpa using hc))
    (by rwa [List.head?_reverse]), List.reverse_reverse]

/-- The text neither begins nor ends with a blank, and the source is the text with nothing but
blanks around it. -/
structure TrimsTo (source text : String) : Prop where
  split : ∃ front back, source.toList = front ++ text.toList ++ back ∧
    (∀ c ∈ front, isBlank c = true) ∧ ∀ c ∈ back, isBlank c = true
  first : ∀ c ∈ text.toList.head?, isBlank c = false
  last : ∀ c ∈ text.toList.getLast?, isBlank c = false

/-- What a source is trimmed to. -/
theorem trim_eq_iff {source text : String} : trim source = text ↔ TrimsTo source text := by
  constructor
  · rintro rfl
    have htext : (trim source).toList = trimmed source.toList := String.toList_ofList
    obtain ⟨front, back, hsplit, hfront, hback⟩ := exists_eq_trimmed source.toList
    refine ⟨⟨front, back, htext ▸ hsplit, hfront, hback⟩, ?_, ?_⟩
    · -- what is left of the end begins as it did
      obtain ⟨rest, hrest, -⟩ := exists_eq_trimmedEnd (trimmedStart source.toList)
      intro c hc
      refine isBlank_of_mem_head?_trimmedStart source.toList c ?_
      rw [htext] at hc
      rw [hrest, List.head?_append, ← trimmed, hc]
      rfl
    · rw [htext, trimmed, trimmedEnd, List.getLast?_reverse]
      exact isBlank_of_mem_head?_trimmedStart _
  · rintro ⟨⟨front, back, hsplit, hfront, hback⟩, hfirst, hlast⟩
    have hstart : trimmedStart source.toList = trimmedStart (text.toList ++ back) := by
      rw [hsplit, List.append_assoc, trimmedStart, List.dropWhile_append_of_pos hfront,
        trimmedStart]
    have hend : trimmed source.toList = text.toList := by
      rw [trimmed, hstart]
      cases hcs : text.toList with
      | nil =>
        rw [List.nil_append, ← List.append_nil back, trimmedStart_append hback (by simp)]
        rfl
      | cons c cs =>
        rw [← hcs, ← List.nil_append (text.toList ++ back), trimmedStart_append (by simp)
          (by simpa [hcs] using hfirst), trimmedEnd_append hlast hback]
    rw [trim, hend, String.ofList_toList]

end DataBinding.Text
