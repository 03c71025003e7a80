import DataBinding.Proofs.Lexing

/-!
# Texts as literals

Any text can be written between two quotes, of whichever kind, if a backslash is put before each
backslash and before each quote of that kind (`Token.literal`).  The source that is so written has
one token, and this stands for the text (`Token.ofSource_literal`).

What makes this right for runs of backslashes is that a backslash is always read together with the
character behind it, and that of the two characters which are written so neither is a letter that
stands for something else.
-/

namespace DataBinding

namespace Token

/-- The text with a backslash before each backslash and each quote of the kind. -/
def escape (quote : Char) (cs : List Char) : List Char :=
  cs.flatMap fun c => if c = '\\' ∨ c = quote then ['\\', c] else [c]

/-- A text between quotes of the kind. -/
def literal (quote : Char) (s : String) : String :=
  String.ofList (quote :: (escape quote s.toList ++ [quote]))

variable {quote : Char}

lemma toList_literal (quote : Char) (s : String) :
    (literal quote s).toList = quote :: (escape quote s.toList ++ [quote]) :=
  String.toList_ofList

/-! ## Between the quotes -/

/-- A backslash or a quote behind a backslash stands for itself. -/
lemma quotedBody_backslash (hquote : quote = '\'' ∨ quote = '"') {c : Char}
    (hc : c = '\\' ∨ c = quote) (opening rest : List Char) :
    quotedBody opening quote ('\\' :: c :: rest) =
      (quotedBody opening quote rest).map fun (s, left) => (c :: s, left) := by
  have hopen : '\\' ≠ quote := by
    rcases hquote with rfl | rfl <;> decide
  have hletter : c ≠ 'u' := by
    rcases hc with rfl | rfl
    · decide
    · rcases hquote with rfl | rfl <;> decide
  have hescaped : escaped c = c := by
    rcases hc with rfl | rfl
    · rfl
    · rcases hquote with rfl | rfl <;> rfl
  rw [quotedBody, if_neg hopen, if_pos rfl, hescaped]
  · exact fun _ _ _ _ _ hu => absurd hu hletter
  · exact hletter

/-- Any other character stands for itself without one. -/
lemma quotedBody_plain {c : Char} (hc : ¬ (c = '\\' ∨ c = quote)) (opening rest : List Char) :
    quotedBody opening quote (c :: rest) =
      (quotedBody opening quote rest).map fun (s, left) => (c :: s, left) := by
  obtain ⟨hbackslash, hclose⟩ := not_or.1 hc
  rw [quotedBody.eq_def]
  simp only [hclose, hbackslash, if_false]

/-- What is written for a text is read as the text, up to the quote that closes it. -/
theorem quotedBody_escape (hquote : quote = '\'' ∨ quote = '"') (opening cs left : List Char) :
    quotedBody opening quote (escape quote cs ++ quote :: left) = .ok (cs, left) := by
  induction cs with
  | nil =>
    change quotedBody opening quote (quote :: left) = _
    rw [quotedBody.eq_def]
    exact if_pos rfl
  | cons c cs ih =>
    rw [escape, List.flatMap_cons, ← escape]
    by_cases hc : c = '\\' ∨ c = quote
    · simp only [if_pos hc, List.cons_append, List.nil_append, quotedBody_backslash hquote hc, ih]
      rfl
    · simp only [if_neg hc, List.cons_append, List.nil_append, quotedBody_plain hc, ih]
      rfl

/-! ## Whole literals -/

/-- The token of a quoted text is all of the source that its reading takes off. -/
lemma scanQuoted_of_quotedBody {s body left : List Char}
    (hbody : quotedBody (quote :: (body ++ left)) quote (body ++ left) = .ok (s, left)) :
    scanQuoted quote (body ++ left) =
      .ok ⟨⟨String.ofList (quote :: body), .string (String.ofList s)⟩, left,
        Nat.lt_succ_of_lt (length_quotedBody_lt hbody)⟩ := by
  unfold scanQuoted
  split
  · next stop hstop => cases hstop.symm.trans hbody
  · next s' left' hs =>
    cases hs.symm.trans hbody
    simp only [take_length_sub]

/-- What begins with a quote begins with a quoted text. -/
lemma scan_of_quote (hquote : quote = '\'' ∨ quote = '"') (rest : List Char) :
    scan quote rest = scanQuoted quote rest := by
  have hnumber : startsNumber (quote :: rest) = false := by
    rcases hquote with rfl | rfl <;> rfl
  rw [scan, dif_neg (by simp [hnumber]), if_pos hquote]

/-- A literal is one token, whatever follows. -/
theorem scanAll_literal (hquote : quote = '\'' ∨ quote = '"') (s : String) (left : List Char) :
    scanAll ((literal quote s).toList ++ left) =
      (scanAll left).map (⟨literal quote s, .string s⟩ :: ·) := by
  have hblank : isSkipped quote = false := by
    rcases hquote with rfl | rfl <;> decide
  have hbody : quotedBody (quote :: (escape quote s.toList ++ [quote] ++ left)) quote
      (escape quote s.toList ++ [quote] ++ left) = .ok (s.toList, left) := by
    rw [List.append_assoc]
    exact quotedBody_escape hquote _ _ _
  have hscan := (scan_of_quote hquote _).trans (scanQuoted_of_quotedBody hbody)
  rw [toList_literal, List.cons_append, scanAll, hblank, if_neg (by decide), hscan]
  simp only [String.ofList_toList]
  rfl

/-- Every text has a literal with either quote: it is one token, which stands for the text and is
spelled as the literal. -/
theorem ofSource_literal (hquote : quote = '\'' ∨ quote = '"') (s : String) :
    ofSource (literal quote s) = .ok [⟨literal quote s, .string s⟩] := by
  have hscan := scanAll_literal hquote s []
  rw [List.append_nil, scanAll] at hscan
  rw [ofSource, hscan]
  rfl

/-- A text that ends with a backslash, and has in it both quotes and what looks like two escapes. -/
theorem ofSource_literal_of_backslashes : ('"' = '\'' ∨ '"' = '"') ∧
    literal '"' "'\\n\"\\u0041\\" = "\"'\\\\n\\\"\\\\u0041\\\\\"" ∧
    ofSource "\"'\\\\n\\\"\\\\u0041\\\\\"" =
      .ok [⟨"\"'\\\\n\\\"\\\\u0041\\\\\"", .string "'\\n\"\\u0041\\"⟩] := by
  have hquote : '"' = '\'' ∨ '"' = '"' := .inr rfl
  have hliteral : literal '"' "'\\n\"\\u0041\\" = "\"'\\\\n\\\"\\\\u0041\\\\\"" := by decide
  have hsource := ofSource_literal hquote "'\\n\"\\u0041\\"
  rw [hliteral] at hsource
  exact ⟨hquote, hliteral, hsource⟩

end Token

end DataBinding
