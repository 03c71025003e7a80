import DataBinding.Proofs.Lexing

/-!
# The texts of numbers

A decimal text is digits with at most one point among them, and then the mark of an exponent, a sign
and digits, of which the sign may be missing, or all of it (`IsDecimal`).  The reader of numerals
accepts these texts and no others (`Numeral.isSome_ofChars?_iff`).

Where a number starts in a source, its text is put together from the source so that it is a decimal
text, whatever comes behind.  The one thing that can be wrong is that an exponent has no digits.  So
the reader is never given a text that it does not accept (`Token.number_texts_decimal`).
-/

namespace DataBinding

/-! ## Decimal texts -/

/-- Digits with at most one point among them, and at least one digit. -/
inductive IsMantissa : List Char → Prop
  | whole {ds : List Char} (hdigits : ∀ c ∈ ds, c.isDigit) (hne : ds ≠ []) : IsMantissa ds
  | point {ds es : List Char} (hdigits : ∀ c ∈ ds, c.isDigit) (hfraction : ∀ c ∈ es, c.isDigit)
    (hne : ds ≠ [] ∨ es ≠ []) : IsMantissa (ds ++ '.' :: es)

/-- An optional sign and at least one digit. -/
inductive IsPower : List Char → Prop
  | signed {sign ds : List Char} (hsign : sign ∈ [[], ['+'], ['-']])
    (hdigits : ∀ c ∈ ds, c.isDigit) (hne : ds ≠ []) : IsPower (sign ++ ds)

/-- Nothing, or a power behind its mark. -/
inductive IsExponent : List Char → Prop
  | none : IsExponent []
  | marked {mark : Char} {power : List Char} (hmark : mark = 'e' ∨ mark = 'E')
    (hpower : IsPower power) : IsExponent (mark :: power)

/-- The text of an unsigned decimal number. -/
inductive IsDecimal : List Char → Prop
  | intro {mantissa exponent : List Char} (hmantissa : IsMantissa mantissa)
    (hexponent : IsExponent exponent) : IsDecimal (mantissa ++ exponent)

/-! ## The reader of numerals -/

lemma IsExponent.isDigit_head? {cs : List Char} (h : IsExponent cs) :
    ∀ c ∈ cs.head?, c.isDigit = false := by
  cases h with
  | none => nofun
  | marked hmark _ =>
    rintro c ⟨⟩
    rcases hmark with rfl | rfl <;> decide

lemma IsExponent.head?_ne_point {cs : List Char} (h : IsExponent cs) (after : List Char) :
    cs ≠ '.' :: after := by
  cases h with
  | none => nofun
  | marked hmark _ =>
    rintro ⟨⟩
    rcases hmark with hmark | hmark <;> cases hmark

namespace Numeral

variable {cs : List Char}

lemma isSome_exponentOfChars?_iff : (exponentOfChars? cs).isSome = true ↔ IsPower cs := by
  have hread : ∀ {ds : List Char} {n : Int},
      (if ds ≠ [] ∧ ds.all Char.isDigit then some n else none).isSome = true ↔
        ds ≠ [] ∧ ∀ c ∈ ds, c.isDigit := by
    intro ds n
    rw [Option.isSome_ite, List.all_eq_true]
  constructor
  · intro h
    unfold exponentOfChars? at h
    split at h
    · obtain ⟨hne, hdigits⟩ := hread.1 h
      exact .signed (by decide : ['-'] ∈ [[], ['+'], ['-']]) hdigits hne
    · obtain ⟨hne, hdigits⟩ := hread.1 h
      exact .signed (by decide : ['+'] ∈ [[], ['+'], ['-']]) hdigits hne
    · obtain ⟨hne, hdigits⟩ := hread.1 h
      exact .signed (by decide : [] ∈ [[], ['+'], ['-']]) hdigits hne
  · rintro @⟨sign, ds, hsign, hdigits, hne⟩
    simp only [List.mem_cons, List.not_mem_nil, or_false] at hsign
    rcases hsign with rfl | rfl | rfl
    · -- what begins with a digit has no sign
      have hunsigned : ∀ c ∈ ds.head?, c ≠ '-' ∧ c ≠ '+' := by
        intro c hc
        have hdigit := hdigits c (List.mem_of_mem_head? hc)
        constructor <;> rintro rfl <;> cases hdigit
      rw [List.nil_append, exponentOfChars?.eq_def]
      split
      · exact absurd rfl (hunsigned _ rfl).1
      · exact absurd rfl (hunsigned _ rfl).2
      · exact hread.2 ⟨hne, hdigits⟩
    · exact hread.2 ⟨hne, hdigits⟩
    · exact hread.2 ⟨hne, hdigits⟩

/-- Behind the digits the reader accepts an exponent. -/
lemma isSome_exponent_iff {whole fraction rest : List Char} :
    (match rest with
      | [] => some (⟨whole, fraction, 0⟩ : Numeral)
      | c :: after =>
        if c = 'e' ∨ c = 'E' then (exponentOfChars? after).map (⟨whole, fraction, ·⟩)
        else none).isSome = true ↔ IsExponent rest := by
  constructor
  · intro h
    split at h
    · exact .none
    · split at h
      · next hmark =>
        rw [Option.isSome_map] at h
        exact .marked hmark (isSome_exponentOfChars?_iff.1 h)
      · cases h
  · intro h
    cases h with
    | none => rfl
    | marked hmark hpower =>
      dsimp only
      rw [if_pos hmark, Option.isSome_map]
      exact isSome_exponentOfChars?_iff.2 hpower

/-- The reader of numerals accepts the decimal texts. -/
theorem isSome_ofChars?_iff : (ofChars? cs).isSome = true ↔ IsDecimal cs := by
  constructor
  · intro h
    have hwhole : cs.takeWhile Char.isDigit ++ cs.dropWhile Char.isDigit = cs :=
      List.takeWhile_append_dropWhile
    unfold ofChars? at h
    dsimp only at h
    split at h
    · next after hafter =>
      have hfraction : after.takeWhile Char.isDigit ++ after.dropWhile Char.isDigit = after :=
        List.takeWhile_append_dropWhile
      dsimp only at h
      split at h
      · cases h
      · next hne =>
        rw [← hwhole, hafter, ← hfraction, ← List.cons_append, ← List.append_assoc]
        exact .intro (.point isDigit_of_mem_takeWhile isDigit_of_mem_takeWhile
          (not_and_or.1 hne)) (isSome_exponent_iff.1 h)
    · dsimp only at h
      split at h
      · cases h
      · next hne =>
        rw [← hwhole]
        exact .intro (.whole isDigit_of_mem_takeWhile fun hnil => hne ⟨hnil, rfl⟩)
          (isSome_exponent_iff.1 h)
  · rintro @⟨m, e, hm, he⟩
    unfold ofChars?
    dsimp only
    cases hm with
    | whole hdigits hne =>
      rw [takeWhile_append_of_head? hdigits he.isDigit_head?,
        dropWhile_append_of_head? hdigits he.isDigit_head?]
      split
      · exact absurd rfl (he.head?_ne_point _)
      · rw [if_neg fun hnil => hne hnil.1]
        exact isSome_exponent_iff.2 he
    | @point ds es hdigits hfraction hne =>
      have hpoint : ∀ c ∈ ('.' :: (es ++ e)).head?, c.isDigit = false := by
        rintro c ⟨⟩
        decide
      rw [List.append_assoc, List.cons_append, takeWhile_append_of_head? hdigits hpoint,
        dropWhile_append_of_head? hdigits hpoint]
      split
      · next after hafter =>
        obtain rfl := (List.cons.inj hafter).2
        rw [takeWhile_append_of_head? hfraction he.isDigit_head?,
          dropWhile_append_of_head? hfraction he.isDigit_head?, if_neg (not_and_or.2 hne)]
        exact isSome_exponent_iff.2 he
      · next hother => exact absurd rfl (hother _)

end Numeral

/-! ## The numbers of a source -/

/-- There is no capital mark in the text. -/
lemma IsMantissa.notMem_capital {cs : List Char} (h : IsMantissa cs) : 'E' ∉ cs := by
  have hdigits : ∀ {ds : List Char}, (∀ c ∈ ds, c.isDigit) → 'E' ∉ ds := by
    intro ds hds hmem
    cases hds 'E' hmem
  cases h with
  | whole hds _ => exact hdigits hds
  | point hds hes _ =>
    simp [hdigits hds, hdigits hes]

lemma IsPower.notMem_capital {cs : List Char} (h : IsPower cs) : 'E' ∉ cs := by
  obtain @⟨sign, ds, hsign, hds, -⟩ := h
  rw [List.mem_append, not_or]
  refine ⟨?_, fun hmem => ?_⟩
  · simp only [List.mem_cons, List.not_mem_nil, or_false] at hsign
    rcases hsign with rfl | rfl | rfl <;> decide
  · cases hds 'E' hmem

namespace Token

variable {cs rest tail left : List Char}

/-- Where a number starts there is a digit, or a point and a digit. -/
lemma startsNumber_cases (h : startsNumber cs = true) :
    (∃ c after, cs = c :: after ∧ c.isDigit) ∨ ∃ c after, cs = '.' :: c :: after ∧ c.isDigit := by
  unfold startsNumber at h
  split at h
  · exact .inr ⟨_, _, rfl, h⟩
  · exact .inl ⟨_, _, rfl, h⟩
  · cases h

lemma isMantissa_mantissa (h : startsNumber cs = true) : IsMantissa (mantissa cs).1 := by
  have htake : ∀ {c : Char} {after : List Char}, c.isDigit →
      (c :: after).takeWhile Char.isDigit ≠ [] := by
    intro c after hc
    simp [hc]
  unfold mantissa
  split
  · next after hafter =>
    refine .point isDigit_of_mem_takeWhile isDigit_of_mem_takeWhile ?_
    rcases startsNumber_cases h with ⟨c, tail, rfl, hc⟩ | ⟨c, tail, rfl, hc⟩
    · exact .inl (htake hc)
    · obtain rfl : c :: tail = after := (List.cons.inj hafter).2
      exact .inr (htake hc)
  · next hpoint =>
    refine .whole isDigit_of_mem_takeWhile ?_
    rcases startsNumber_cases h with ⟨c, tail, rfl, hc⟩ | ⟨c, tail, rfl, hc⟩
    · exact htake hc
    · exact absurd rfl (hpoint _)

/-- An exponent that is read is one, and its mark is made small. -/
lemma isExponent_of_exponent (h : exponent cs = .ok (tail, rest)) :
    IsExponent tail ∧ 'E' ∉ tail := by
  cases cs with
  | nil =>
    cases h
    exact ⟨.none, by decide⟩
  | cons c cs =>
    by_cases hmark : c = 'e' ∨ c = 'E'
    · obtain ⟨sign, after, hsign, -, hread⟩ := exponent_of_mark hmark cs
      rw [hread] at h
      split at h
      · cases h
      · next hdigits =>
        cases h
        have hpower : IsPower (sign ++ after.takeWhile Char.isDigit) :=
          .signed hsign isDigit_of_mem_takeWhile hdigits
        refine ⟨.marked (.inl rfl) hpower, ?_⟩
        simpa using hpower.notMem_capital
    · simp only [exponent, hmark, if_false] at h
      cases h
      exact ⟨.none, by decide⟩

/-- A number starts here with an exponent, but what is left where its digits should come begins with
none. -/
inductive LacksDigits : List Char → List Char → Prop
  | intro {m sign left : List Char} {mark : Char} (hm : IsMantissa m)
    (hmark : mark = 'e' ∨ mark = 'E') (hsign : sign ∈ [[], ['+'], ['-']])
    (hleft : ∀ c ∈ left.head?, c.isDigit = false) : LacksDigits (m ++ mark :: (sign ++ left)) left

/-- The reading of an exponent fails only where its digits are missing. -/
lemma exponent_error {stop : LexicalStop} (h : exponent cs = .error stop) :
    stop.1 = .invalidExponent ∧ ∃ mark sign, (mark = 'e' ∨ mark = 'E') ∧
      sign ∈ [[], ['+'], ['-']] ∧ cs = mark :: (sign ++ stop.2) ∧
        ∀ c ∈ stop.2.head?, c.isDigit = false := by
  cases cs with
  | nil => cases h
  | cons c cs =>
    by_cases hmark : c = 'e' ∨ c = 'E'
    · obtain ⟨sign, after, hsign, rfl, hread⟩ := exponent_of_mark hmark cs
      rw [hread] at h
      split at h
      · next hdigits =>
        cases h
        exact ⟨rfl, c, sign, hmark, hsign, rfl, isDigit_head?_of_takeWhile hdigits⟩
      · cases h
    · simp only [exponent, hmark, if_false] at h
      cases h

lemma SpelledAs.length_eq {t : Token} (h : t.SpelledAs cs) : cs.length = t.text.length := by
  rw [← String.length_toList]
  cases h with
  | text => rfl
  | capital htext _ =>
    rw [htext]
    simp

/-- A token that is a number: its text is decimal, with a small mark, and the source goes on behind
as many characters as the text has. -/
structure Scanned.IsNumber {cs : List Char} (s : Scanned cs) : Prop where
  decimal : IsDecimal s.token.text.toList
  small : 'E' ∉ s.token.text.toList
  value : ∃ n, Numeral.ofChars? s.token.text.toList = some n ∧
    s.token.kind = .number (Number.ofDecimal n.decimal)
  length_le : s.token.text.length ≤ cs.length
  rest_eq : s.rest = cs.drop s.token.text.length

variable (h : startsNumber cs = true)

lemma scanNumber_of_error {stop : LexicalStop}
    (hexponent : exponent (mantissa cs).2 = .error stop) : scanNumber cs h = .error stop := by
  unfold scanNumber
  split
  · next hstop => exact congrArg _ (Except.error.inj (hstop.symm.trans hexponent))
  · next hread => cases hread.symm.trans hexponent

lemma exists_scanNumber_of_ok {n : Numeral}
    (hexponent : exponent (mantissa cs).2 = .ok (tail, rest))
    (hn : Numeral.ofChars? ((mantissa cs).1 ++ tail) = some n) :
    ∃ s, scanNumber cs h = .ok s ∧ s.token = ⟨String.ofList ((mantissa cs).1 ++ tail),
      .number (Number.ofDecimal n.decimal)⟩ := by
  unfold scanNumber
  split
  · next hstop => cases hstop.symm.trans hexponent
  · next hread =>
    cases hread.symm.trans hexponent
    dsimp only
    split
    · next hnone => cases hnone.symm.trans hn
    · next hsome =>
      cases hsome.symm.trans hn
      exact ⟨_, rfl, rfl⟩

/-- The source goes on behind as many characters as the text of a number has. -/
lemma rest_of_scanNumber {s : Scanned cs} (hs : scanNumber cs h = .ok s) :
    s.token.text.length ≤ cs.length ∧ s.rest = cs.drop s.token.text.length := by
  have hscans := scans_scanNumber cs h
  rw [hs] at hscans
  obtain ⟨spelling, hsplit, hspelled⟩ := hscans
  rw [← hspelled.length_eq]
  constructor
  · have hlength := congrArg List.length hsplit
    rw [List.length_append] at hlength
    omega
  · exact ((congrArg (List.drop spelling.length) hsplit).trans List.drop_left).symm

/-- What starts as a number is one, or its exponent lacks the digits. -/
lemma scanNumber_cases :
    (∃ s, scanNumber cs h = .ok s ∧ s.IsNumber) ∨
      ∃ left, scanNumber cs h = .error (.invalidExponent, left) ∧ LacksDigits cs left := by
  have hmantissa := isMantissa_mantissa h
  cases hexponent : exponent (mantissa cs).2 with
  | error stop =>
    obtain ⟨hfault, mark, sign, hmark, hsign, hbehind, hleft⟩ := exponent_error hexponent
    refine .inr ⟨stop.2, ?_, ?_⟩
    · rw [scanNumber_of_error h hexponent, ← hfault]
    · rw [← mantissa_append cs, hbehind]
      exact .intro hmantissa hmark hsign hleft
  | ok r =>
    obtain ⟨htail, hsmall⟩ := isExponent_of_exponent hexponent
    have hdecimal : IsDecimal ((mantissa cs).1 ++ r.1) := .intro hmantissa htail
    obtain ⟨n, hn⟩ := Option.isSome_iff_exists.1 (Numeral.isSome_ofChars?_iff.2 hdecimal)
    obtain ⟨s, hs, htoken⟩ := exists_scanNumber_of_ok h hexponent hn
    obtain ⟨hle, hrest⟩ := rest_of_scanNumber h hs
    have htext : s.token.text.toList = (mantissa cs).1 ++ r.1 := by
      rw [htoken, String.toList_ofList]
    exact .inl ⟨s, hs,
      { decimal := htext ▸ hdecimal
        small := by
          rw [htext, List.mem_append, not_or]
          exact ⟨hmantissa.notMem_capital, hsmall⟩
        value := ⟨n, htext ▸ hn, congrArg Token.kind htoken⟩
        length_le := hle
        rest_eq := hrest }⟩

/-! ## Sources -/

lemma quotedBody_error {opening : List Char} {quote : Char} {stop : LexicalStop}
    (hstop : quotedBody opening quote cs = .error stop) (text : String) :
    stop.1 ≠ .invalidNumber text := by
  have hmap : ∀ {r : Except LexicalStop (List Char × List Char)}
      {g : List Char × List Char → List Char × List Char},
      r.map g = .error stop → r = .error stop := by
    intro r g hr
    cases r with
    | error => exact hr
    | ok => cases hr
  fun_induction quotedBody opening quote cs with
  | case1 | case3 | case5 | case6 =>
    cases hstop
    intro hkind
    cases hkind
  | case2 => cases hstop
  | case4 _ _ _ _ _ _ _ _ ih | case7 _ _ _ _ _ ih | case8 _ _ _ _ ih => exact ih (hmap hstop)

lemma scanOperator_error {c : Char} {stop : LexicalStop} (hstop : scanOperator c rest = .error stop)
    (text : String) : stop.1 ≠ .invalidNumber text := by
  unfold scanOperator at hstop
  split at hstop
  · cases hstop
  · split at hstop
    · cases hstop
      intro hkind
      cases hkind
    · cases hstop

lemma scanQuoted_error {c : Char} {stop : LexicalStop} (hstop : scanQuoted c rest = .error stop)
    (text : String) : stop.1 ≠ .invalidNumber text := by
  unfold scanQuoted at hstop
  split at hstop
  · next hbody =>
    cases hstop
    exact quotedBody_error hbody text
  · cases hstop

/-- No token of a source is a number that cannot be read. -/
lemma scan_error {c : Char} {stop : LexicalStop} (hstop : scan c rest = .error stop)
    (text : String) : stop.1 ≠ .invalidNumber text := by
  unfold scan at hstop
  split at hstop
  · next hnumber =>
    rcases scanNumber_cases hnumber with ⟨s, hs, -⟩ | ⟨left, hleft, -⟩
    · cases hs.symm.trans hstop
    · cases hleft.symm.trans hstop
      intro hkind
      cases hkind
  · split at hstop
    · exact scanQuoted_error hstop text
    · split at hstop
      · cases hstop
      · exact scanOperator_error hstop text

lemma scanAll_error {stop : LexicalStop} (hstop : scanAll cs = .error stop) (text : String) :
    stop.1 ≠ .invalidNumber text := by
  fun_induction scanAll cs with
  | case1 => cases hstop
  | case2 _ _ _ ih => exact ih hstop
  | case3 c rest _ stop' hscan =>
    cases hstop
    exact scan_error hscan text
  | case4 c rest _ s hs ih =>
    cases hrest : scanAll s.rest with
    | error => exact ih (hrest ▸ hstop)
    | ok =>
      rw [hrest] at hstop
      cases hstop

/-- Wherever a number starts in a source, its text is decimal and the source goes on behind as many
characters, or an exponent has no digits.  So in no source is there a number that cannot be read. -/
theorem number_texts_decimal (source : String) :
    (∀ i c rest, source.toList.drop i = c :: rest → startsNumber (c :: rest) = true →
      match scan c rest with
      | .ok s => s.IsNumber ∧ i + s.token.text.length ≤ source.length ∧
          s.rest = source.toList.drop (i + s.token.text.length)
      | .error stop => stop.1 = .invalidExponent ∧ LacksDigits (c :: rest) stop.2) ∧
    ∀ text column, ofSource source ≠ .error (.lexical (.invalidNumber text) column) := by
  constructor
  · intro i c rest hi hstart
    have hscan : scan c rest = scanNumber (c :: rest) hstart := dif_pos hstart
    rcases scanNumber_cases hstart with ⟨s, hs, hnumber⟩ | ⟨left, hleft, hlacks⟩
    · rw [hscan, hs]
      have hlength := congrArg List.length hi
      rw [List.length_drop, String.length_toList] at hlength
      have hpos : 0 < (c :: rest).length := Nat.succ_pos _
      have hle := hnumber.length_le
      refine ⟨hnumber, by omega, ?_⟩
      calc s.rest = (c :: rest).drop s.token.text.length := hnumber.rest_eq
        _ = (source.toList.drop i).drop s.token.text.length := by rw [hi]
        _ = source.toList.drop (i + s.token.text.length) := List.drop_drop
    · rw [hscan, hleft]
      exact ⟨rfl, hlacks⟩
  · intro text column hinvalid
    unfold ofSource at hinvalid
    split at hinvalid
    · cases hinvalid
    · next fault left hstop =>
      cases hinvalid
      exact scanAll_error hstop text rfl

/-- A number whose point has no digits behind it and whose mark is a capital ends at a second
point. -/
theorem number_texts_decimal_of_points :
    "x + 1.E+5.2".toList.drop 4 = '1' :: ".E+5.2".toList ∧
    startsNumber ('1' :: ".E+5.2".toList) = true ∧
    ∃ s, scan '1' ".E+5.2".toList = .ok s ∧ s.token.text = "1.e+5" ∧
      IsDecimal s.token.text.toList ∧ s.rest = ".2".toList := by
  have hplace : "x + 1.E+5.2".toList.drop 4 = '1' :: ".E+5.2".toList := by decide
  have hstart : startsNumber ('1' :: ".E+5.2".toList) = true := by decide
  have hnumber := (number_texts_decimal "x + 1.E+5.2").1 4 '1' ".E+5.2".toList hplace hstart
  obtain ⟨s, hs, htext⟩ : ∃ s, scan '1' ".E+5.2".toList = .ok s ∧ s.token.text = "1.e+5" :=
    ⟨_, rfl, rfl⟩
  rw [hs] at hnumber
  obtain ⟨hnumber, -, hrest⟩ := hnumber
  refine ⟨hplace, hstart, s, hs, htext, hnumber.decimal, hrest.trans ?_⟩
  rw [htext]
  decide

end Token

end DataBinding
