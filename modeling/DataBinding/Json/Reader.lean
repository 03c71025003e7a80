import DataBinding.Json
import DataBinding.Number.Reading
import DataBinding.Text.Hexadecimal

/-!
# Reading JSON

A text is read in two steps.  `Source.read?` recognises the JSON grammar and keeps numbers and
texts as they are spelled, with repeated members and in their order.  `Source.toJson?` then gives
them their values, and refuses numbers out of range, unpaired surrogates and nesting of
`nestingBound` levels; a document that is only skipped over need not pass it.

Each reader returns the rest of the text with the proof that it is shorter, which is why reading
ends.
-/

namespace DataBinding.Json

/-! ## Spellings -/

/-- A number as it is spelled. -/
structure Spelling where
  negative : Bool
  whole : List Char
  fraction : Option (List Char)
  exponent : Option Int

/-- A document as it is spelled.  A text with an unpaired surrogate has no value. -/
inductive Source where
  | null
  | bool (b : Bool)
  | number (n : Spelling)
  | string (s : Option String)
  | array (items : List Source)
  | object (members : List (Option String × Source))

/-- What was read, and a shorter rest. -/
abbrev Read (α : Type) (cs : List Char) : Type := { r : α × List Char // r.2.length < cs.length }

/-- Blanks between the tokens of a document. -/
def isSpace (c : Char) : Bool := c = ' ' || c = '\n' || c = '\r' || c = '\t'

/-- The text without the blanks it begins with. -/
def skipSpace (cs : List Char) : List Char := cs.dropWhile isSpace

theorem length_skipSpace_le (cs : List Char) : (skipSpace cs).length ≤ cs.length :=
  (List.dropWhile_suffix isSpace).length_le

/-- A leading zero stands alone. -/
def wholeDigits? (cs : List Char) : Option (List Char × List Char) :=
  match cs with
  | '0' :: rest => some (['0'], rest)
  | _ =>
    let digits := cs.takeWhile Char.isDigit
    if digits = [] then none else some (digits, cs.dropWhile Char.isDigit)

/-- The digits after a point, if there is one; `none` if they are missing. -/
def fractionDigits? (cs : List Char) : Option (Option (List Char) × List Char) :=
  match cs with
  | '.' :: rest =>
    let digits := rest.takeWhile Char.isDigit
    if digits = [] then none else some (some digits, rest.dropWhile Char.isDigit)
  | _ => some (none, cs)

/-- The exponent, if there is one; `none` if its digits are missing. -/
def exponentPart? (cs : List Char) : Option (Option Int × List Char) :=
  let unsigned := fun (sign : Int) (rest : List Char) =>
    let digits := rest.takeWhile Char.isDigit
    if digits = [] then none
    else some (some (sign * (digitsValue digits : Int)), rest.dropWhile Char.isDigit)
  match cs with
  | c :: rest =>
    if c = 'e' ∨ c = 'E' then
      match rest with
      | '-' :: after => unsigned (-1) after
      | '+' :: after => unsigned 1 after
      | _ => unsigned 1 rest
    else some (none, cs)
  | [] => some (none, [])

/-- A number at the start of a text. -/
def spelling? (cs : List Char) : Option (Spelling × List Char) := do
  let (negative, rest) := match cs with
    | '-' :: rest => (true, rest)
    | _ => (false, cs)
  let (whole, rest) ← wholeDigits? rest
  let (fraction, rest) ← fractionDigits? rest
  let (exponent, rest) ← exponentPart? rest
  return (⟨negative, whole, fraction, exponent⟩, rest)

/-- What a single-letter escape stands for. -/
def escape? : Char → Option Char
  | '"' => some '"'
  | '\\' => some '\\'
  | '/' => some '/'
  | 'b' => some '\x08'
  | 'f' => some '\x0c'
  | 'n' => some '\n'
  | 'r' => some '\r'
  | 't' => some '\t'
  | _ => none

/-- The code units of a text after its opening quote, up to the closing one, and the rest. -/
def units? : List Char → Option (List (Char ⊕ Nat) × List Char)
  | [] => none
  | '"' :: rest => some ([], rest)
  | '\\' :: 'u' :: a :: b :: c :: d :: rest => do
    let unit ← Text.codeUnit? a b c d
    let (more, rest) ← units? rest
    return (.inr unit :: more, rest)
  | '\\' :: e :: rest => do
    let c ← escape? e
    let (more, rest) ← units? rest
    return (.inl c :: more, rest)
  | c :: rest =>
    if c.toNat < 0x20 then none
    else do
      let (more, rest) ← units? rest
      return (.inl c :: more, rest)

/-- The text of code units: escaped surrogates must come in pairs. -/
def decodeUnits? : List (Char ⊕ Nat) → Option (List Char)
  | [] => some []
  | .inl c :: rest => (decodeUnits? rest).map (c :: ·)
  | .inr high :: .inr low :: rest =>
    if 0xd800 ≤ high ∧ high < 0xdc00 then
      if 0xdc00 ≤ low ∧ low < 0xe000 then
        (decodeUnits? rest).map
          (Char.ofNat (0x10000 + (high - 0xd800) * 0x400 + (low - 0xdc00)) :: ·)
      else none
    else (Text.unitChar? high).bind fun c => (decodeUnits? (.inr low :: rest)).map (c :: ·)
  | .inr unit :: rest => (Text.unitChar? unit).bind fun c => (decodeUnits? rest).map (c :: ·)

/-- A text after its opening quote. -/
def string? (cs : List Char) : Option (Option String × List Char) :=
  (units? cs).map fun (units, rest) => ((decodeUnits? units).map String.ofList, rest)

/-- Keeps a reading whose rest is shorter than the text. -/
def shorter? {α : Type} (cs : List Char) (r : Option (α × List Char)) : Option (Read α cs) :=
  r.bind fun r => if h : r.2.length < cs.length then some ⟨r, h⟩ else none

/-! ## Documents -/

/-- The first character that is no blank, and the rest after it. -/
def next? (cs : List Char) : Option (Read Char cs) :=
  match h : skipSpace cs with
  | c :: rest => some ⟨(c, rest), by
      have := length_skipSpace_le cs
      rw [h] at this
      exact Nat.lt_of_succ_le this⟩
  | [] => none

mutual

/-- A document at the start of a text that begins without blanks. -/
def document? (cs : List Char) : Option (Read Source cs) :=
  match cs with
  | [] => none
  | '"' :: rest => shorter? _ ((string? rest).map fun (s, rest) => (.string s, rest))
  | '[' :: rest =>
    match skipSpace rest with
    | ']' :: after => shorter? _ (some (.array [], after))
    | _ => (elements? (skipSpace rest)).bind fun ⟨(items, after), _⟩ =>
      shorter? _ (some (.array items, after))
  | '\x7b' :: rest =>
    match skipSpace rest with
    | '\x7d' :: after => shorter? _ (some (.object [], after))
    | _ => (members? (skipSpace rest)).bind fun ⟨(members, after), _⟩ =>
      shorter? _ (some (.object members, after))
  | 't' :: 'r' :: 'u' :: 'e' :: rest => shorter? _ (some (.bool true, rest))
  | 'f' :: 'a' :: 'l' :: 's' :: 'e' :: rest => shorter? _ (some (.bool false, rest))
  | 'n' :: 'u' :: 'l' :: 'l' :: rest => shorter? _ (some (.null, rest))
  | c :: rest => shorter? _ ((spelling? (c :: rest)).map fun (n, after) => (.number n, after))
termination_by (cs.length, 0)
decreasing_by
  all_goals
    have := length_skipSpace_le rest
    exact Prod.Lex.left _ _ (Nat.lt_succ_of_le this)

/-- One or more elements up to the closing bracket. -/
def elements? (cs : List Char) : Option (Read (List Source) cs) :=
  (document? cs).bind fun ⟨(item, rest), _⟩ =>
    (next? rest).bind fun ⟨(c, after), _⟩ =>
      if c = ']' then shorter? _ (some ([item], after))
      else if c = ',' then
        (elements? (skipSpace after)).bind fun ⟨(items, after), _⟩ =>
          shorter? _ (some (item :: items, after))
      else none
termination_by (cs.length, 1)
decreasing_by
  · exact Prod.Lex.right _ Nat.zero_lt_one
  · have := length_skipSpace_le after
    refine Prod.Lex.left _ _ ?_
    simp only at *
    omega

/-- One or more members up to the closing brace. -/
def members? (cs : List Char) : Option (Read (List (Option String × Source)) cs) :=
  match cs with
  | '"' :: rest =>
    (shorter? ('"' :: rest) (string? rest)).bind fun ⟨(key, rest), _⟩ =>
      (next? rest).bind fun ⟨(colon, rest), _⟩ =>
        if colon = ':' then
          (document? (skipSpace rest)).bind fun ⟨(value, last), _⟩ =>
            (next? last).bind fun ⟨(c, after), _⟩ =>
              if c = '\x7d' then shorter? _ (some ([(key, value)], after))
              else if c = ',' then
                (members? (skipSpace after)).bind fun ⟨(members, after), _⟩ =>
                  shorter? _ (some ((key, value) :: members, after))
              else none
        else none
  | _ => none
termination_by (cs.length, 1)
decreasing_by
  · have := length_skipSpace_le rest
    refine Prod.Lex.left _ _ ?_
    simp only [List.length_cons] at *
    omega
  · have := length_skipSpace_le rest
    have := length_skipSpace_le after
    refine Prod.Lex.left _ _ ?_
    simp only [List.length_cons] at *
    omega

end

/-- A whole text as a document, blanks around it allowed. -/
def Source.read? (text : String) : Option Source :=
  (document? (skipSpace text.toList)).bind fun r =>
    if skipSpace r.1.2 = [] then some r.1.1 else none

/-! ## Values of spellings -/

namespace Spelling

/-- Whole numbers below this bound are read exactly. -/
def wordBound : Nat := Nat.pow 2 64

/-- The significand and the power of ten of a spelling.  Digits that no longer fit a word are
dropped: before the point they raise the power, after it they are ignored. -/
def scaled (n : Spelling) : Nat × Int :=
  let fits := fun (significand : Nat) (c : Char) =>
    let next := 10 * significand + (c.toNat - '0'.toNat)
    if next < wordBound then some next else none
  let rec whole (significand : Nat) : List Char → Nat × Int
    | [] => (significand, 0)
    | c :: rest =>
      match fits significand c with
      | some next => whole next rest
      | none => (significand, (c :: rest).length)
  let rec fraction (significand : Nat) (power : Int) : List Char → Nat × Int
    | [] => (significand, power)
    | c :: rest =>
      match fits significand c with
      | some next => fraction next (power - 1) rest
      | none => (significand, power)
  let (significand, power) := whole 0 n.whole
  match n.fraction with
  | some digits => fraction significand power digits
  | none => (significand, power)

/-- The greatest power of ten that is a number. -/
def topPower : Nat := 308

/-- `x · 10^power` for a significand `x`, by one product or quotient with a power of ten where that
suffices; `none` beyond the numbers, and zero where the second quotient leaves nothing. -/
def scale? (x : Float) (power : Int) : Option Float :=
  let tenTo := fun n : Nat => Float.ofScientific 1 false n
  if 0 ≤ power then
    if power ≤ topPower then
      let y := x * tenTo power.toNat
      if y.isInf then none else some y
    else if x == 0.0 then some x
    else none
  else
    let down := (-power).toNat
    if down ≤ topPower then some (x / tenTo down)
    else if down ≤ 2 * topPower then some (x / tenTo topPower / tenTo (down - topPower))
    else some 0.0

/-- Exponents beyond this bound are out of range, or leave nothing. -/
def exponentBound : Int := (Nat.pow 2 31 : Nat)

/-- The number that a spelling denotes: an integer if it is spelled as one and fits a word, else
the nearest that scaling its significand yields; `none` if it is out of range. -/
def toJson? (n : Spelling) : Option Json :=
  let (significand, power) := n.scaled
  let signed := fun x : Float => Json.double (if n.negative then -x else x)
  match n.fraction, n.exponent with
  | none, none =>
    if power ≠ 0 then (scale? (Float.ofNat significand) power).map signed
    else if !n.negative then some (.integer significand)
    else if significand = 0 ∨ Nat.pow 2 63 < significand then
      some (signed (Float.ofNat significand))
    else some (.integer (-significand))
  | _, exponent =>
    let e := exponent.getD 0
    if e ≥ exponentBound ∧ significand ≠ 0 then none
    else if e ≥ exponentBound ∨ -e ≥ exponentBound then some (signed 0.0)
    else (scale? (Float.ofNat significand) (power + e)).map signed

/-- The spelling as a word: digits only, and small enough. -/
def toWord? (n : Spelling) : Option Nat :=
  match n.negative, n.fraction, n.exponent with
  | false, none, none =>
    if digitsValue n.whole < wordBound then some (digitsValue n.whole) else none
  | _, _, _ => none

end Spelling

/-! ## Values of documents -/

/-- Arrays and objects may be nested less deep than this. -/
def nestingBound : Nat := 128

mutual

/-- The value of a document with room for fewer than `room` levels of nesting. -/
def Source.toJsonWithin? (room : Nat) : Source → Option Json
  | .null => some .null
  | .bool b => some (.bool b)
  | .number n => n.toJson?
  | .string s => s.map .string
  | .array items => if room ≤ 1 then none else (elementsToJson? (room - 1) items).map .array
  | .object members =>
    if room ≤ 1 then none
    else (membersToJson? (room - 1) members).map fun ms => .object (sortMembers ms)

/-- The values of elements. -/
def elementsToJson? (room : Nat) : List Source → Option (List Json)
  | [] => some []
  | d :: rest => do
    let j ← d.toJsonWithin? room
    return j :: (← elementsToJson? room rest)

/-- The values of members. -/
def membersToJson? (room : Nat) : List (Option String × Source) → Option (List (String × Json))
  | [] => some []
  | (key, d) :: rest => do
    let key ← key
    let j ← d.toJsonWithin? room
    return (key, j) :: (← membersToJson? room rest)

end

/-- The value of a document. -/
def Source.toJson? (d : Source) : Option Json := d.toJsonWithin? nestingBound

/-- The document that a text is. -/
def ofText? (text : String) : Option Json := (Source.read? text).bind Source.toJson?

end DataBinding.Json
