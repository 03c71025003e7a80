import DataBinding.Token.Lexer
import Mathlib.Tactic.Common

/-!
# Nothing of a source is lost

The tokens of a source are the source: their texts stand in it one after another with nothing but
blanks before, between and after them (`Token.Written`).  One thing is not as it was written.  The
mark of an exponent is a small `e` in the text of a number and may be a capital `E` in the source.

Where a source cannot be split into tokens, the column of the error is the place in the source at
which the fault is found (`Token.ofSource_written`).
-/

namespace DataBinding

/-! ## Runs of characters -/

lemma isDigit_of_mem_takeWhile {cs : List Char} : ∀ c ∈ cs.takeWhile Char.isDigit, c.isDigit :=
  fun _ => List.all_eq_true.1 List.all_takeWhile _

/-- A run of characters of one kind ends where a character of another kind comes. -/
lemma takeWhile_append_of_head? {p : Char → Bool} {xs ys : List Char} (hxs : ∀ c ∈ xs, p c)
    (hys : ∀ c ∈ ys.head?, p c = false) : (xs ++ ys).takeWhile p = xs := by
  rw [List.takeWhile_append_of_pos hxs]
  cases ys with
  | nil => simp
  | cons c ys => simp [hys c rfl]

lemma dropWhile_append_of_head? {p : Char → Bool} {xs ys : List Char} (hxs : ∀ c ∈ xs, p c)
    (hys : ∀ c ∈ ys.head?, p c = false) : (xs ++ ys).dropWhile p = ys := by
  rw [List.dropWhile_append_of_pos hxs]
  cases ys with
  | nil => rfl
  | cons c ys => simp [hys c rfl]

/-- Where a run of digits is empty, no digit comes next. -/
lemma isDigit_head?_of_takeWhile {cs : List Char} (hcs : cs.takeWhile Char.isDigit = []) :
    ∀ c ∈ cs.head?, c.isDigit = false := by
  intro d hd
  cases cs with
  | nil => cases hd
  | cons c cs =>
    obtain rfl : c = d := by simpa using hd
    simpa [List.takeWhile_cons] using hcs

/-! ## Spellings -/

namespace Token

/-- How a token may be written: as its text, or as the text of a number with a capital `E` after its
digits. -/
inductive SpelledAs : Token → List Char → Prop
  | text (t : Token) : SpelledAs t t.text.toList
  | capital {text : String} {x : Float} {digits exponent : List Char}
    (htext : text.toList = digits ++ 'e' :: exponent)
    (hdigits : ∀ c ∈ digits, c.isDigit ∨ c = '.') :
    SpelledAs ⟨text, .number x⟩ (digits ++ 'E' :: exponent)

/-- The source is a writing of the tokens: blanks, the first token, blanks, the second token, and so
on, with blanks at the end. -/
inductive Written : List Token → List Char → Prop
  | nil {blanks : List Char} (hblanks : ∀ c ∈ blanks, isSkipped c) : Written [] blanks
  | cons {t : Token} {ts : List Token} {blanks spelling rest : List Char}
    (hblanks : ∀ c ∈ blanks, isSkipped c) (ht : t.SpelledAs spelling) (hrest : Written ts rest) :
    Written (t :: ts) (blanks ++ spelling ++ rest)

/-- More blanks may come first. -/
lemma Written.blank {ts : List Token} {cs : List Char} {c : Char} (hc : isSkipped c)
    (h : Written ts cs) : Written ts (c :: cs) := by
  cases h with
  | nil hblanks => exact .nil (List.forall_mem_cons.2 ⟨hc, hblanks⟩)
  | cons hblanks ht hrest => exact .cons (List.forall_mem_cons.2 ⟨hc, hblanks⟩) ht hrest

end Token

/-- What is found where a fault is: the character that begins no token, the quote that is not
closed, the letter of the escape, the number, and, where an exponent should be, no digit. -/
def LexicalFault.FoundAt : LexicalFault → List Char → Prop
  | .unexpectedCharacter c, cs => cs.head? = some c
  | .unmatchedQuote, cs => ∃ quote ∈ cs.head?, quote = '\'' ∨ quote = '"'
  | .invalidEscape, cs => cs.head? = some 'u'
  | .invalidExponent, cs => ∀ c ∈ cs.head?, c.isDigit = false
  | .invalidNumber _, cs => Token.startsNumber cs

/-- The fault is found in the source, with what is left of it there. -/
def LexicalStop.Within (stop : LexicalStop) (cs : List Char) : Prop :=
  stop.2 <:+ cs ∧ stop.1.FoundAt stop.2

namespace LexicalStop.Within

variable {stop : LexicalStop} {cs ds : List Char}

lemma of_suffix (h : stop.Within cs) (hsuffix : cs <:+ ds) : stop.Within ds :=
  ⟨h.1.trans hsuffix, h.2⟩

end LexicalStop.Within

namespace Token

/-- A scanner has spelled out a token, or has found a fault. -/
def Scans (cs : List Char) : Except LexicalStop (Scanned cs) → Prop
  | .ok s => ∃ spelling, cs = spelling ++ s.rest ∧ s.token.SpelledAs spelling
  | .error stop => stop.Within cs

/-! ## Numbers -/

lemma mantissa_append (cs : List Char) : (mantissa cs).1 ++ (mantissa cs).2 = cs := by
  have hwhole : cs.takeWhile Char.isDigit ++ cs.dropWhile Char.isDigit = cs :=
    List.takeWhile_append_dropWhile
  unfold mantissa
  split
  · next after hafter =>
    have hfraction : after.takeWhile Char.isDigit ++ after.dropWhile Char.isDigit = after :=
      List.takeWhile_append_dropWhile
    rw [hafter] at hwhole
    dsimp only
    rw [List.append_assoc, List.cons_append, hfraction, hwhole]
  · exact hwhole

lemma isDigit_of_mem_mantissa {cs : List Char} {c : Char} (hc : c ∈ (mantissa cs).1) :
    c.isDigit ∨ c = '.' := by
  unfold mantissa at hc
  split at hc
  · simp only [List.mem_append, List.mem_cons] at hc
    rcases hc with hc | rfl | hc
    · exact .inl (isDigit_of_mem_takeWhile c hc)
    · exact .inr rfl
    · exact .inl (isDigit_of_mem_takeWhile c hc)
  · exact .inl (isDigit_of_mem_takeWhile c hc)

/-- Behind the mark of an exponent comes a sign, or none, and then the digits. -/
lemma exponent_of_mark {c : Char} (hmark : c = 'e' ∨ c = 'E') (rest : List Char) :
    ∃ sign after, sign ∈ [[], ['+'], ['-']] ∧ rest = sign ++ after ∧
      exponent (c :: rest) =
        if after.takeWhile Char.isDigit = [] then .error (.invalidExponent, after)
        else .ok ('e' :: sign ++ after.takeWhile Char.isDigit, after.dropWhile Char.isDigit) := by
  simp only [exponent, hmark, if_true]
  split
  · exact ⟨['+'], _, by decide, rfl, rfl⟩
  · exact ⟨['-'], _, by decide, rfl, rfl⟩
  · exact ⟨[], _, by decide, rfl, rfl⟩

/-- There is no exponent, or it is what is read with its mark made small, or its digits are
missing. -/
lemma exponent_cases (cs : List Char) :
    exponent cs = .ok ([], cs) ∨
      (∃ c tail rest, (c = 'e' ∨ c = 'E') ∧ cs = c :: tail ++ rest ∧
        exponent cs = .ok ('e' :: tail, rest)) ∨
      ∃ left, left <:+ cs ∧ (∀ c ∈ left.head?, c.isDigit = false) ∧
        exponent cs = .error (.invalidExponent, left) := by
  cases cs with
  | nil => exact .inl rfl
  | cons c rest =>
    by_cases hmark : c = 'e' ∨ c = 'E'
    · right
      obtain ⟨sign, after, -, hrest, hexponent⟩ := exponent_of_mark hmark rest
      have hafter : after.takeWhile Char.isDigit ++ after.dropWhile Char.isDigit = after :=
        List.takeWhile_append_dropWhile
      rw [hexponent]
      by_cases hdigits : after.takeWhile Char.isDigit = []
      · refine .inr ⟨after, ?_, isDigit_head?_of_takeWhile hdigits, by rw [if_pos hdigits]⟩
        rw [hrest]
        exact (List.suffix_append sign after).trans (List.suffix_cons c _)
      · refine .inl ⟨c, sign ++ after.takeWhile Char.isDigit, after.dropWhile Char.isDigit, hmark,
          ?_, by rw [if_neg hdigits]; rfl⟩
        rw [hrest, List.cons_append, List.append_assoc, hafter]
    · left
      simp [exponent, hmark]

lemma scans_scanNumber (cs : List Char) (h : startsNumber cs = true) :
    Scans cs (scanNumber cs h) := by
  have hcs := mantissa_append cs
  unfold scanNumber
  split
  · next stop hstop =>
    rcases exponent_cases (mantissa cs).2 with h | ⟨_, _, _, -, -, h⟩ | ⟨left, hleft, hfound, h⟩
    · cases h.symm.trans hstop
    · cases h.symm.trans hstop
    · cases h.symm.trans hstop
      have hsuffix : (mantissa cs).2 <:+ cs := ⟨_, hcs⟩
      exact ⟨hleft.trans hsuffix, hfound⟩
  · next tail rest hexponent =>
    dsimp only
    split
    · exact ⟨List.suffix_rfl, h⟩
    · next n hn =>
      rcases exponent_cases (mantissa cs).2 with
        h | ⟨c, tail', rest', hc, hsplit, h⟩ | ⟨_, -, -, h⟩
      · cases h.symm.trans hexponent
        refine ⟨(mantissa cs).1, hcs.symm, ?_⟩
        have htext := SpelledAs.text
          ⟨String.ofList (mantissa cs).1, .number (Number.ofDecimal n.decimal)⟩
        simpa using htext
      · cases h.symm.trans hexponent
        refine ⟨(mantissa cs).1 ++ c :: tail', ?_, ?_⟩
        · rw [List.append_assoc, ← hsplit, hcs]
        · rcases hc with rfl | rfl
          · have htext := SpelledAs.text
              ⟨String.ofList ((mantissa cs).1 ++ 'e' :: tail'),
                .number (Number.ofDecimal n.decimal)⟩
            simpa using htext
          · exact .capital (String.toList_ofList) fun c hc => isDigit_of_mem_mantissa hc
      · cases h.symm.trans hexponent

/-! ## Quoted texts -/

/-- The contents of a quoted text have been read up to what is left, or a fault was found in the
quoted text. -/
def Quotes (opening cs : List Char) : Except LexicalStop (List Char × List Char) → Prop
  | .ok r => r.2 <:+ cs
  | .error stop => stop.Within opening

/-- Another character is put before the contents. -/
lemma Quotes.map {opening cs ds : List Char} {r : Except LexicalStop (List Char × List Char)}
    (h : Quotes opening ds r) (hds : ds <:+ cs) (c : Char) :
    Quotes opening cs (r.map fun (s, left) => (c :: s, left)) := by
  cases r with
  | error stop => exact h
  | ok r => exact List.IsSuffix.trans h hds

lemma quotes_quotedBody {opening cs : List Char} {quote : Char}
    (hquote : quote = '\'' ∨ quote = '"') (hopening : opening.head? = some quote)
    (hcs : cs <:+ opening) : Quotes opening cs (quotedBody opening quote cs) := by
  have hunmatched : LexicalStop.Within (.unmatchedQuote, opening) opening :=
    ⟨List.suffix_rfl, quote, hopening, hquote⟩
  have htail : ∀ {c : Char} {rest : List Char}, c :: rest <:+ opening → rest <:+ opening :=
    fun hcons => (List.suffix_cons _ _).trans hcons
  fun_induction quotedBody opening quote cs with
  | case1 => exact hunmatched
  | case2 => exact List.suffix_cons _ _
  | case3 => exact hunmatched
  | case4 a b d e after _ _ _ ih =>
    have hafter : after <:+ '\\' :: 'u' :: a :: b :: d :: e :: after :=
      ⟨['\\', 'u', a, b, d, e], rfl⟩
    exact (ih (hafter.trans hcs)).map hafter _
  | case5 => exact ⟨htail hcs, rfl⟩
  | case6 => exact ⟨htail hcs, rfl⟩
  | case7 e after _ _ _ ih =>
    have hafter : after <:+ '\\' :: e :: after := ⟨['\\', e], rfl⟩
    exact (ih (hafter.trans hcs)).map hafter _
  | case8 c rest _ _ ih => exact (ih (htail hcs)).map (List.suffix_cons _ _) _

/-- What is taken off a source is all but what is left. -/
lemma take_length_sub (c : Char) (body left : List Char) :
    (c :: (body ++ left)).take ((body ++ left).length + 1 - left.length) = c :: body := by
  have hlength : (body ++ left).length + 1 - left.length = (c :: body).length := by
    simp only [List.length_append, List.length_cons]
    omega
  rw [hlength, ← List.cons_append, List.take_left]

lemma scans_scanQuoted {quote : Char} (hquote : quote = '\'' ∨ quote = '"') (rest : List Char) :
    Scans (quote :: rest) (scanQuoted quote rest) := by
  have hbody : Quotes (quote :: rest) rest (quotedBody (quote :: rest) quote rest) :=
    quotes_quotedBody hquote rfl (List.suffix_cons _ rest)
  unfold scanQuoted
  split
  · next stop hstop =>
    rw [hstop] at hbody
    exact hbody
  · next s left hleft =>
    rw [hleft] at hbody
    obtain ⟨body, hrest⟩ : left <:+ rest := hbody
    have htake : (quote :: rest).take (rest.length + 1 - left.length) = quote :: body := by
      rw [← hrest, take_length_sub]
    refine ⟨quote :: body, (congrArg (quote :: ·) hrest).symm, ?_⟩
    have htext := SpelledAs.text
      ⟨String.ofList ((quote :: rest).take (rest.length + 1 - left.length)),
        .string (String.ofList s)⟩
    rw [String.toList_ofList, htake] at htext
    rw [htake]
    exact htext

/-! ## Names, marks and operators -/

lemma scans_scanName (c : Char) (rest : List Char) : Scans (c :: rest) (.ok (scanName c rest)) := by
  refine ⟨c :: rest.takeWhile isNamePart, ?_, ?_⟩
  · have hrest : rest.takeWhile isNamePart ++ rest.dropWhile isNamePart = rest :=
      List.takeWhile_append_dropWhile
    simp [scanName, hrest]
  · have htext := SpelledAs.text (scanName c rest).token
    simpa [scanName] using htext

lemma scans_scanOperator (c : Char) (rest : List Char) :
    Scans (c :: rest) (scanOperator c rest) := by
  unfold scanOperator
  split
  · refine ⟨[c], rfl, ?_⟩
    have htext := SpelledAs.text ⟨c.toString, .operator⟩
    simpa using htext
  · split
    · exact ⟨List.suffix_rfl, rfl⟩
    · next op hop =>
      have hprefix : op.toList <+: c :: rest := by
        have hfound := List.find?_some hop
        simpa using hfound
      exact ⟨op.toList, List.prefix_iff_eq_append.1 hprefix |>.symm, .text _⟩

/-! ## Whole sources -/

/-- The token that a source begins with is spelled out there, or a fault is found. -/
lemma scans_scan (c : Char) (rest : List Char) : Scans (c :: rest) (scan c rest) := by
  unfold scan
  split
  · next hnumber => exact scans_scanNumber _ hnumber
  · split
    · next hquote => exact scans_scanQuoted hquote rest
    · split
      · exact scans_scanName c rest
      · exact scans_scanOperator c rest

/-- The source is a writing of its tokens, or a fault is found in it. -/
def Reads (cs : List Char) : Except LexicalStop (List Token) → Prop
  | .ok ts => Written ts cs
  | .error stop => stop.Within cs

lemma reads_scanAll (cs : List Char) : Reads cs (scanAll cs) := by
  fun_induction scanAll cs with
  | case1 => exact .nil (by simp)
  | case2 c rest hblank ih =>
    cases hr : scanAll rest with
    | ok ts =>
      rw [hr] at ih
      exact Written.blank hblank ih
    | error stop =>
      rw [hr] at ih
      exact ih.of_suffix (List.suffix_cons c rest)
  | case3 c rest _ stop hstop =>
    have hscan := scans_scan c rest
    rw [hstop] at hscan
    exact hscan
  | case4 c rest _ s hs ih =>
    have hscan := scans_scan c rest
    rw [hs] at hscan
    obtain ⟨spelling, hsplit, hspelled⟩ := hscan
    cases hr : scanAll s.rest with
    | ok ts =>
      rw [hr] at ih
      have hwritten : Written (s.token :: ts) ([] ++ spelling ++ s.rest) :=
        .cons (by simp) hspelled ih
      rw [List.nil_append, ← hsplit] at hwritten
      exact hwritten
    | error stop =>
      rw [hr] at ih
      exact ih.of_suffix ⟨spelling, hsplit.symm⟩

/-- Every source that can be split into tokens is a writing of these tokens.  For any other there is
a fault, and the column that is reported is where it is found: at a character of the source, or
right behind the last one. -/
theorem ofSource_written (source : String) :
    match ofSource source with
    | .ok tokens => Written tokens source.toList
    | .error e => ∃ fault column, e = .lexical fault column ∧ column ≤ source.length ∧
        fault.FoundAt (source.toList.drop column) := by
  have hreads := reads_scanAll source.toList
  unfold ofSource
  cases hr : scanAll source.toList with
  | ok tokens =>
    rw [hr] at hreads
    exact hreads
  | error stop =>
    obtain ⟨fault, left⟩ := stop
    rw [hr] at hreads
    obtain ⟨⟨before, hbefore⟩, hfound⟩ := hreads
    have hcolumn : source.toList.length - left.length = before.length := by
      rw [← hbefore]
      simp
    have hle : before.length ≤ source.length := by
      rw [← String.length_toList, ← hbefore]
      simp
    refine ⟨fault, _, rfl, ?_, ?_⟩
    · rw [hcolumn]
      exact hle
    · rw [hcolumn, ← hbefore, List.drop_left]
      exact hfound

end Token

end DataBinding
