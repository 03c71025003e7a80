import DataBinding.Error
import DataBinding.Number.Reading
import DataBinding.Text.Hexadecimal
import DataBinding.Token

/-!
# From source text to tokens

`Token.ofSource` splits a source text.  Numbers, quoted texts, names, blanks, punctuation and
operators are tried in this order, of several operators the longest; anything else is an error at
its column.

A scanner works on what is left of the source and returns a shorter rest.  A failing one returns
what was left where it failed, and the column is counted from there.
-/

namespace DataBinding

/-- A fault, and what was left of the source where it was found. -/
abbrev LexicalStop : Type := LexicalFault × List Char

namespace Token

/-- A token at the start of `cs`, and what is left after it. -/
structure Scanned (cs : List Char) where
  token : Token
  rest : List Char
  rest_lt : rest.length < cs.length

/-! ## Character classes -/

/-- Blanks between tokens. -/
def isSkipped (c : Char) : Bool :=
  c = ' ' || c = '\r' || c = '\t' || c = '\n' || c = '\x0b' || c = '\xa0'

/-- How a name begins. -/
def isNameStart (c : Char) : Bool := c.isAlpha || c = '_' || c = '$'

/-- How a name goes on. -/
def isNamePart (c : Char) : Bool := isNameStart c || c.isDigit

/-- Marks that are tokens by themselves. -/
def punctuation : List Char := "[],\x7b\x7d:.()?;".toList

/-- Operators, the longer ones first. -/
def operators : List String :=
  ["===", "!==", "==", "!=", "<=", ">=", "&&", "||", "+", "-", "*", "/", "%", "!", "=", "<", ">",
    "|"]

/-- The first operator that the source begins with. -/
def operatorAt? (cs : List Char) : Option String :=
  operators.find? fun op => op.toList.isPrefixOf cs

theorem length_pos_of_operatorAt? {cs : List Char} {op : String} (h : operatorAt? cs = some op) :
    0 < op.toList.length := by
  have mem := List.mem_of_find?_eq_some h
  have pos : ∀ op ∈ operators, 0 < op.toList.length := by decide
  exact pos op mem

/-! ## Numbers -/

/-- The digits at the start, with at most one point among them. -/
def mantissa (cs : List Char) : List Char × List Char :=
  let whole := cs.takeWhile Char.isDigit
  match cs.dropWhile Char.isDigit with
  | '.' :: after => (whole ++ '.' :: after.takeWhile Char.isDigit, after.dropWhile Char.isDigit)
  | rest => (whole, rest)

/-- An exponent at the start, written with a small `e`; empty if there is none. -/
def exponent (cs : List Char) : Except LexicalStop (List Char × List Char) :=
  match cs with
  | c :: rest =>
    if c = 'e' ∨ c = 'E' then
      let (sign, rest) := match rest with
        | '+' :: after => (['+'], after)
        | '-' :: after => (['-'], after)
        | _ => ([], rest)
      let digits := rest.takeWhile Char.isDigit
      if digits = [] then .error (.invalidExponent, rest)
      else .ok ('e' :: sign ++ digits, rest.dropWhile Char.isDigit)
    else .ok ([], cs)
  | [] => .ok ([], [])

/-- Whether a number starts here: a digit, or a point before one. -/
def startsNumber : List Char → Bool
  | '.' :: d :: _ => d.isDigit
  | c :: _ => c.isDigit
  | [] => false

theorem length_dropWhile_isDigit_le (cs : List Char) :
    (cs.dropWhile Char.isDigit).length ≤ cs.length :=
  (List.dropWhile_suffix Char.isDigit).length_le

theorem length_mantissa_lt {cs : List Char} (h : startsNumber cs = true) :
    (mantissa cs).2.length < cs.length := by
  have le := length_dropWhile_isDigit_le cs
  unfold mantissa
  split
  · next after hr =>
    have := length_dropWhile_isDigit_le after
    rw [hr, List.length_cons] at le
    dsimp only
    omega
  · next hr =>
    match cs, h with
    | c :: rest, h =>
      have hc : c.isDigit = true := by
        by_cases hp : c = '.'
        · subst hp
          exact absurd rfl (hr rest)
        · cases rest <;> simp_all [startsNumber]
      have := length_dropWhile_isDigit_le rest
      simp only [List.dropWhile_cons, hc, if_true, List.length_cons]
      omega

theorem length_exponent_le {cs text rest : List Char} (h : exponent cs = .ok (text, rest)) :
    rest.length ≤ cs.length := by
  unfold exponent at h
  split at h
  · next c tail =>
    split at h
    · split at h
      next sign after hs =>
      have hafter : after.length ≤ tail.length := by
        split at hs <;> cases hs <;> simp
      dsimp only at h
      split at h
      · cases h
      · cases h
        have := length_dropWhile_isDigit_le after
        simp only [List.length_cons]
        omega
    · cases h
      exact Nat.le_refl _
  · cases h
    exact Nat.le_refl _

/-- A number. -/
def scanNumber (cs : List Char) (h : startsNumber cs = true) :
    Except LexicalStop (Scanned cs) :=
  match he : exponent (mantissa cs).2 with
  | .error stop => .error stop
  | .ok (tail, rest) =>
    let text := (mantissa cs).1 ++ tail
    match Numeral.ofChars? text with
    | none => .error (.invalidNumber (String.ofList text), cs)
    | some n => .ok
      { token := ⟨String.ofList text, .number (Number.ofDecimal n.decimal)⟩
        rest
        rest_lt := Nat.lt_of_le_of_lt (length_exponent_le he) (length_mantissa_lt h) }

/-! ## Quoted texts -/

/-- The character that a letter after a backslash stands for. -/
def escaped : Char → Char
  | 'n' => '\n'
  | 'f' => '\x0c'
  | 'r' => '\r'
  | 't' => '\t'
  | 'v' => '\x0b'
  | c => c

/-- The contents of a quoted text up to its closing quote, and what is left; `opening` is what was
left at the opening quote. -/
def quotedBody (opening : List Char) (quote : Char) :
    List Char → Except LexicalStop (List Char × List Char)
  | [] => .error (.unmatchedQuote, opening)
  | c :: rest =>
    if c = quote then .ok ([], rest)
    else if c = '\\' then
      match rest with
      | [] => .error (.unmatchedQuote, opening)
      | 'u' :: a :: b :: d :: e :: after =>
        match (Text.codeUnit? a b d e).bind Text.unitChar? with
        | some x => (quotedBody opening quote after).map fun (s, left) => (x :: s, left)
        | none => .error (.invalidEscape, rest)
      | 'u' :: _ => .error (.invalidEscape, rest)
      | e :: after => (quotedBody opening quote after).map fun (s, left) => (escaped e :: s, left)
    else (quotedBody opening quote rest).map fun (s, left) => (c :: s, left)

theorem length_quotedBody_lt {opening cs s left : List Char} {quote : Char}
    (h : quotedBody opening quote cs = .ok (s, left)) : left.length < cs.length := by
  have mapped {r : Except LexicalStop (List Char × List Char)} {x : Char} {s left : List Char}
      (h : (r.map fun (s, left) => (x :: s, left)) = .ok (s, left)) : ∃ t, r = .ok (t, left) := by
    cases r with
    | error => cases h
    | ok r => cases h; exact ⟨r.1, rfl⟩
  fun_induction quotedBody opening quote cs generalizing s with
  | case1 => cases h
  | case2 => cases h; exact Nat.lt_succ_self _
  | case3 => cases h
  | case4 _ _ _ _ _ _ _ _ ih =>
    obtain ⟨t, ht⟩ := mapped h
    have := ih ht
    simp only [List.length_cons]
    omega
  | case5 => cases h
  | case6 => cases h
  | case7 _ _ _ _ _ ih =>
    obtain ⟨t, ht⟩ := mapped h
    have := ih ht
    simp only [List.length_cons]
    omega
  | case8 _ _ _ _ ih =>
    obtain ⟨t, ht⟩ := mapped h
    exact Nat.lt_succ_of_lt (ih ht)

/-- A quoted text, which keeps its spelling as its text. -/
def scanQuoted (quote : Char) (rest : List Char) : Except LexicalStop (Scanned (quote :: rest)) :=
  match h : quotedBody (quote :: rest) quote rest with
  | .error stop => .error stop
  | .ok (s, left) => .ok
    { token :=
        ⟨String.ofList ((quote :: rest).take (rest.length + 1 - left.length)),
          .string (String.ofList s)⟩
      rest := left
      rest_lt := Nat.lt_succ_of_lt (length_quotedBody_lt h) }

/-! ## Names, marks and operators -/

/-- A name. -/
def scanName (c : Char) (rest : List Char) : Scanned (c :: rest) where
  token := ⟨String.ofList (c :: rest.takeWhile isNamePart), .identifier⟩
  rest := rest.dropWhile isNamePart
  rest_lt := Nat.lt_succ_of_le (List.dropWhile_suffix isNamePart).length_le

/-- A mark or an operator. -/
def scanOperator (c : Char) (rest : List Char) : Except LexicalStop (Scanned (c :: rest)) :=
  if c ∈ punctuation then
    .ok { token := ⟨c.toString, .operator⟩, rest, rest_lt := Nat.lt_succ_self _ }
  else
    match h : operatorAt? (c :: rest) with
    | none => .error (.unexpectedCharacter c, c :: rest)
    | some op => .ok
      { token := ⟨op, .operator⟩
        rest := (c :: rest).drop op.toList.length
        rest_lt := by
          have := length_pos_of_operatorAt? h
          rw [List.length_drop, List.length_cons]
          omega }

/-! ## Whole sources -/

/-- The token that a source begins with. -/
def scan (c : Char) (rest : List Char) : Except LexicalStop (Scanned (c :: rest)) :=
  if h : startsNumber (c :: rest) = true then scanNumber (c :: rest) h
  else if c = '\'' ∨ c = '"' then scanQuoted c rest
  else if isNameStart c then .ok (scanName c rest)
  else scanOperator c rest

/-- The tokens of what is left of a source. -/
def scanAll : List Char → Except LexicalStop (List Token)
  | [] => .ok []
  | c :: rest =>
    if isSkipped c then scanAll rest
    else
      match scan c rest with
      | .error stop => .error stop
      | .ok s => (scanAll s.rest).map (s.token :: ·)
termination_by cs => cs.length
decreasing_by
  · exact Nat.lt_succ_self _
  · exact s.rest_lt

/-- The tokens of a source text. -/
def ofSource (source : String) : Except Error (List Token) :=
  match scanAll source.toList with
  | .ok tokens => .ok tokens
  | .error (fault, left) => .error (.lexical fault (source.toList.length - left.length))

end Token

end DataBinding
