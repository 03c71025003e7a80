import DataBinding.Expression
import DataBinding.Proofs.Acceptance
import DataBinding.Proofs.Lexing

/-!
# Paths as they are written

Names with points between them are the source of a path: they compile to the place that the names
lead to one after another (`Expression.compile_dotted`).  The first name must not be a keyword; the
others may be, because what follows a point is always a name.
-/

namespace DataBinding

open Grammar

/-- The text is spelled as a name. -/
def Token.isWord (s : String) : Bool :=
  match s.toList with
  | [] => false
  | c :: cs => isNameStart c && cs.all isNamePart

/-- The place of a name, or of a member of what the names before it lead to. -/
def Place.path (first : String) (rest : List String) : Place :=
  rest.foldl (fun p key => .member (.place p) key) (.name first)

/-! ## Tokens -/

namespace Token

variable {c : Char} {s : String} {cs left : List Char} {names : List String}

lemma isDigit_of_isNameStart (hc : isNameStart c) : c.isDigit = false := by
  simp only [isNameStart, Bool.or_eq_true, decide_eq_true_eq] at hc
  obtain (halpha | rfl) | rfl := hc
  · -- Letters come behind the digits.
    have hletter : 65 ≤ c.val := by
      rcases Bool.or_eq_true_iff.1 halpha with hupper | hlower
      · have hbounds : 65 ≤ c.val ∧ c.val ≤ 90 := of_decide_eq_true hupper
        exact hbounds.1
      · have hbound : 97 ≤ c.val := of_decide_eq_true (Bool.and_eq_true_iff.1 hlower).1
        grind
    by_contra hdigit
    simp only [Char.isDigit, Bool.not_eq_false, Bool.and_eq_true, decide_eq_true_eq] at hdigit
    grind
  · decide
  · decide

lemma isSkipped_of_isNameStart (hc : isNameStart c) : isSkipped c = false := by
  by_contra hskipped
  simp only [isSkipped, Bool.not_eq_false, Bool.or_eq_true, decide_eq_true_eq] at hskipped
  rcases hskipped with ((((rfl | rfl) | rfl) | rfl) | rfl) | rfl <;> exact absurd hc (by decide)

lemma startsNumber_of_isNameStart (hc : isNameStart c) (cs : List Char) :
    startsNumber (c :: cs) = false := by
  have hpoint : c ≠ '.' := by
    rintro rfl
    exact absurd hc (by decide)
  rw [startsNumber.eq_def]
  grind [isDigit_of_isNameStart]

lemma scan_of_isNameStart (hc : isNameStart c) (cs : List Char) :
    scan c cs = .ok (scanName c cs) := by
  have hquote : ¬ (c = '\'' ∨ c = '"') := by
    rintro (rfl | rfl) <;> exact absurd hc (by decide)
  rw [scan, dif_neg (by simp [startsNumber_of_isNameStart hc]), if_neg hquote, if_pos hc]

lemma exists_of_isWord (hs : isWord s) :
    ∃ c cs, s.toList = c :: cs ∧ isNameStart c ∧ ∀ d ∈ cs, isNamePart d := by
  unfold isWord at hs
  split at hs
  · cases hs
  · next c cs hspelled =>
    obtain ⟨hc, hcs⟩ := Bool.and_eq_true_iff.1 hs
    exact ⟨c, cs, hspelled, hc, List.all_eq_true.1 hcs⟩

/-- A name ends where no character of a name follows. -/
lemma scanAll_word (hs : isWord s) (hleft : ∀ c ∈ left.head?, isNamePart c = false) :
    scanAll (s.toList ++ left) = (scanAll left).map (ident s :: ·) := by
  obtain ⟨c, cs, hspelled, hc, hcs⟩ := exists_of_isWord hs
  have htake : (cs ++ left).takeWhile isNamePart = cs := takeWhile_append_of_head? hcs hleft
  have hdrop : (cs ++ left).dropWhile isNamePart = left := dropWhile_append_of_head? hcs hleft
  rw [hspelled, List.cons_append, scanAll, isSkipped_of_isNameStart hc, scan_of_isNameStart hc]
  simp only [scanName, htake, hdrop, ← hspelled, String.ofList_toList]
  rfl

/-- A point before a name is no part of a number. -/
lemma scanAll_point (hs : isWord s) (left : List Char) :
    scanAll ('.' :: (s.toList ++ left)) = (scanAll (s.toList ++ left)).map (mark "." :: ·) := by
  obtain ⟨c, cs, hspelled, hc, -⟩ := exists_of_isWord hs
  have hdigit : startsNumber ('.' :: (s.toList ++ left)) = false := by
    rw [hspelled]
    exact isDigit_of_isNameStart hc
  have hscan : scan '.' (s.toList ++ left) =
      .ok ⟨mark ".", s.toList ++ left, Nat.lt_succ_self _⟩ := by
    rw [scan, dif_neg (by simp [hdigit]), if_neg (by decide), if_neg (by decide), scanOperator,
      if_pos (by decide)]
    rfl
  rw [scanAll, if_neg (by decide), hscan]

lemma toList_dotted (first : String) (names : List String) :
    (".".intercalate (first :: names)).toList =
      first.toList ++ names.flatMap fun key => '.' :: key.toList := by
  induction names generalizing first with
  | nil => simp
  | cons next names ih =>
    rw [String.intercalate_cons_cons, String.toList_append, String.toList_append, ih,
      List.flatMap_cons, List.append_assoc]
    rfl

/-- What is behind a name of a path is the end or a point. -/
lemma isNamePart_head?_members (names : List String) :
    ∀ c ∈ (names.flatMap fun key => '.' :: key.toList).head?, isNamePart c = false := by
  cases names with
  | nil => nofun
  | cons =>
    rintro c ⟨⟩
    decide

lemma scanAll_members (hnames : ∀ name ∈ names, isWord name) :
    scanAll (names.flatMap fun key => '.' :: key.toList) =
      .ok (names.flatMap fun key => [mark ".", ident key]) := by
  induction names with
  | nil => simp [scanAll]
  | cons key names ih =>
    obtain ⟨hkey, hrest⟩ := List.forall_mem_cons.1 hnames
    rw [List.flatMap_cons, List.cons_append, scanAll_point hkey,
      scanAll_word hkey (isNamePart_head?_members names), ih hrest]
    rfl

/-- The tokens of a path are its names and the points between them. -/
lemma ofSource_dotted {first : String} (hnames : ∀ name ∈ first :: names, isWord name) :
    ofSource (".".intercalate (first :: names)) =
      .ok (ident first :: names.flatMap fun key => [mark ".", ident key]) := by
  obtain ⟨hfirst, hrest⟩ := List.forall_mem_cons.1 hnames
  have hscan : scanAll (".".intercalate (first :: names)).toList =
      .ok (ident first :: names.flatMap fun key => [mark ".", ident key]) := by
    rw [toList_dotted, scanAll_word hfirst (isNamePart_head?_members names),
      scanAll_members hrest]
    rfl
  rw [ofSource, hscan]

end Token

/-! ## Phrases -/

namespace Grammar

/-- The members of a path. -/
def Chain.members (names : List String) : Chain := names.foldr .member .none

/-- An operand without operators, at any level of binding. -/
def Binary.operand (u : Unary) : (n : ℕ) → Binary n
  | 0 => .unary u
  | n + 1 => .joined (operand u n) .none

lemma Chain.tokens_members (names : List String) :
    (Chain.members names).tokens = names.flatMap fun key => [mark ".", ident key] := by
  induction names with
  | nil => rfl
  | cons key names ih => exact congrArg (mark "." :: ident key :: ·) ih

lemma Chain.denote?_members (p : Place) (names : List String) :
    (Chain.members names).denote? (.place p) =
      some (.place (names.foldl (fun p key => .member (.place p) key) p)) := by
  induction names generalizing p with
  | nil => rfl
  | cons key names ih => exact ih (.member (.place p) key)

lemma Binary.tokens_operand (u : Unary) (n : ℕ) : (Binary.operand u n).tokens = u.tokens := by
  induction n with
  | zero => rfl
  | succ n ih =>
    change (Binary.operand u n).tokens ++ [] = _
    rw [List.append_nil, ih]

lemma Binary.denote?_operand (u : Unary) (n : ℕ) : (Binary.operand u n).denote? = u.denote? := by
  induction n with
  | zero => rfl
  | succ n ih =>
    change (Binary.operand u n).denote?.bind some = _
    rw [Option.bind_fun_some, ih]

end Grammar

namespace Phrase

variable {first : String}

/-- The tokens of a path are read as the path. -/
lemma statements_dotted (hfirst : keyword? first = none) (names : List String) :
    statements (ident first :: names.flatMap fun key => [mark ".", ident key]) =
      .ok [.place (.path first names)] := by
  have hname : ∀ k : Keyword, k.text ≠ first := by
    rintro k rfl
    cases k <;> cases hfirst
  let path : Unary := .primary (.of (.name first hname) (.members names))
  let phrase : FilterChain := .of (.value (.operand (.operand path 6))) .none
  have htokens : phrase.tokens ++ statementsBehind [] =
      ident first :: names.flatMap fun key => [mark ".", ident key] := by
    change ((Binary.operand path 6).tokens ++ []) ++ [] = _
    rw [List.append_nil, List.append_nil, Binary.tokens_operand]
    exact congrArg (ident first :: ·) (Chain.tokens_members names)
  have hdenote : phrase.denote? = some (.place (.path first names)) := by
    change (Binary.operand path 6).denote?.bind some = _
    rw [Option.bind_fun_some, Binary.denote?_operand]
    exact Chain.denote?_members (.name first) names
  rw [← htokens, statements_filterChain hdenote, statements_nil]
  rfl

end Phrase

/-! ## Compiled paths -/

lemma Expr.placeFilterNames_foldl (p : Place) (names : List String) :
    placeFilterNames (names.foldl (fun p key => .member (.place p) key) p) =
      placeFilterNames p := by
  induction names generalizing p with
  | nil => rfl
  | cons key names ih => exact ih (.member (.place p) key)

namespace Expression

/-- The compiled form of a path. -/
def dotted (first : String) (names : List String) (oneTime : Bool) : Expression where
  source := ".".intercalate (first :: names)
  body := [.place (.path first names)]
  filters := []
  oneTime := oneTime

lemma compile_dotted (registry : Record Filter) {first : String} {names : List String}
    (hfirst : Phrase.keyword? first = none) (hnames : ∀ name ∈ first :: names, Token.isWord name)
    (oneTime : Bool) :
    compile registry (".".intercalate (first :: names)) oneTime =
      .ok (dotted first names oneTime) := by
  have hfilters : Expr.filterNamesList [.place (.path first names)] = [] := by
    rw [Expr.filterNamesList, Expr.filterNames, Place.path, Expr.placeFilterNames_foldl]
    rfl
  rw [compile, Token.ofSource_dotted hnames]
  change (Phrase.statements _ >>= fun body => _) = _
  rw [Phrase.statements_dotted hfirst]
  change (resolve registry (Expr.filterNamesList [.place (.path first names)]).eraseDups >>=
    fun filters => _) = _
  rw [hfilters]
  rfl

end Expression

end DataBinding
