import DataBinding.Expr.Phrase
import DataBinding.Proofs.Grammar

/-!
# What the parser reads

Whatever a function of the parser reads has a derivation: its tokens are those that were taken, and
it stands for the tree that was returned.  Where it reads nothing it fails with a fault of the
grammar.

`Reads` says both of one reading.  It passes from the parts of a phrase to the phrase
(`Reads.bind`), and the recursion goes down as that of the parser does.
-/

namespace DataBinding.Phrase

open Grammar

variable {α β : Type} {ts : List Token}

/-- The reading ends with something that has the property, or with a fault of the grammar. -/
def Reads (x : Except Error α) (P : α → Prop) : Prop :=
  match x with
  | .ok a => P a
  | .error e => ∃ fault, e = .grammar fault

namespace Reads

variable {P : α → Prop} {Q : β → Prop} {x : Except Error α}

lemma ok {a : α} (h : P a) : Reads (.ok a) P := h

lemma error (fault : GrammarFault) : Reads (.error (.grammar fault)) P := ⟨fault, rfl⟩

lemma bind {f : α → Except Error β} (hx : Reads x P) (hf : ∀ a, P a → Reads (f a) Q) :
    Reads (x >>= f) Q := by
  cases x with
  | ok a => exact hf a hx
  | error e => exact hx

lemma mono {P' : α → Prop} (hx : Reads x P) (h : ∀ a, P a → P' a) : Reads x P' := by
  cases x with
  | ok a => exact h a hx
  | error e => exact hx

end Reads

/-! ## Single tokens -/

lemma eq_mark_of_isOperator {t : Token} {text : String} (h : t.isOperator text = true) :
    t = mark text := by
  obtain ⟨spelling, kind⟩ := t
  cases kind with
  | operator =>
    have hspelling : spelling = text := by simpa [Token.isOperator] using h
    rw [hspelling]
  | _ => cases h

lemma eq_ident_of_isIdentifier {t : Token} (h : t.isIdentifier = true) : t = ident t.text := by
  obtain ⟨spelling, kind⟩ := t
  cases kind with
  | identifier => rfl
  | _ => cases h

lemma eq_of_accept? {text : String} {after : { r : List Token // r.length < ts.length }}
    (h : accept? text ts = some after) : ts = mark text :: after.1 := by
  cases ts with
  | nil => cases h
  | cons t rest =>
    rw [accept?] at h
    split at h
    · next ht =>
      cases h
      rw [eq_mark_of_isOperator ht]
    · cases h

lemma reads_expect (text : String) (ts : List Token) :
    Reads (expect text ts) fun after => ts = mark text :: after.1 := by
  unfold expect
  split
  · next after h => exact .ok (eq_of_accept? h)
  · split
    · exact .error _
    · exact .error _

lemma reads_name (ts : List Token) : Reads (name ts) fun s => ts = ident s.value :: s.rest := by
  cases ts with
  | nil => exact .error _
  | cons t rest =>
    rw [name]
    split
    · next ht => exact .ok (congrArg (· :: rest) (eq_ident_of_isIdentifier ht))
    · exact .error _

lemma reads_constant (ts : List Token) :
    Reads (constant ts) fun s => ∃ c : Constant, c.literal = s.value ∧ ts = c.token :: s.rest := by
  match ts with
  | [] => exact .error _
  | ⟨spelling, .number x⟩ :: rest => exact .ok ⟨.number spelling x, rfl, rfl⟩
  | ⟨spelling, .string s⟩ :: rest => exact .ok ⟨.string spelling s, rfl, rfl⟩
  | ⟨_, .identifier⟩ :: _ => exact .error _
  | ⟨_, .operator⟩ :: _ => exact .error _

lemma reads_propertyKey (ts : List Token) :
    Reads (propertyKey ts) fun s => ∃ k : Key, k.denote = s.value ∧ ts = k.token :: s.rest := by
  cases ts with
  | nil => exact .error _
  | cons t rest =>
    rw [propertyKey]
    split
    · next ht => exact .ok ⟨.name t.text, rfl, congrArg (· :: rest) (eq_ident_of_isIdentifier ht)⟩
    · have hconstant := reads_constant (t :: rest)
      cases hread : constant (t :: rest) with
      | error e =>
        rw [hread] at hconstant
        exact hconstant
      | ok s =>
        rw [hread] at hconstant
        obtain ⟨c, hc, htokens⟩ := hconstant
        exact .ok ⟨.constant c, congrArg PropertyKey.literal hc, htokens⟩

/-- The keywords are the names that are no places. -/
lemma keyword?_cases (s : String) :
    (∃ k : Keyword, k.text = s ∧ keyword? s = some k.denote) ∨
      (∀ k : Keyword, k.text ≠ s) ∧ keyword? s = none := by
  unfold keyword?
  split
  · exact .inl ⟨.null, rfl, rfl⟩
  · exact .inl ⟨.true, rfl, rfl⟩
  · exact .inl ⟨.false, rfl, rfl⟩
  · exact .inl ⟨.this, rfl, rfl⟩
  · exact .inl ⟨.locals, rfl, rfl⟩
  · next hnull htrue hfalse hthis hlocals =>
    refine .inr ⟨fun k => ?_, rfl⟩
    cases k
    · exact Ne.symm hnull
    · exact Ne.symm htrue
    · exact Ne.symm hfalse
    · exact Ne.symm hthis
    · exact Ne.symm hlocals

/-! ## Operators -/

lemma eq_of_acceptOf? {table : List (String × α)} {x : α}
    {after : { r : List Token // r.length < ts.length }}
    (h : acceptOf? table ts = some (x, after)) :
    ∃ text, table.lookup text = some x ∧ ts = mark text :: after.1 := by
  match ts with
  | [] => cases h
  | ⟨_, .number _⟩ :: _ => cases h
  | ⟨_, .string _⟩ :: _ => cases h
  | ⟨_, .identifier⟩ :: _ => cases h
  | ⟨text, .operator⟩ :: rest =>
    obtain ⟨y, hy, hafter⟩ := Option.map_eq_some_iff.1 h
    cases hafter
    exact ⟨text, hy, rfl⟩

private lemma mem_of_lookup_eq_some {table : List (String × α)} {text : String} {x : α}
    (h : table.lookup text = some x) : (text, x) ∈ table := by
  obtain ⟨before, after, rfl, -⟩ := List.lookup_eq_some_iff.1 h
  exact List.mem_append_right _ (.head _)

/-- The operators of a level are those of the grammar. -/
lemma exists_joint_of_lookup {n : ℕ} {text : String} {join : Expr → Expr → Expr}
    (h : (operatorLevel n).lookup text = some join) :
    ∃ op : Joint n, op.text = text ∧ op.denote = join := by
  have hmem : (text, join) ∈ operatorLevel n := mem_of_lookup_eq_some h
  unfold operatorLevel at hmem
  split at hmem
  all_goals simp only [List.mem_cons, Prod.mk.injEq, List.not_mem_nil, or_false] at hmem
  · rcases hmem with ⟨rfl, rfl⟩ | ⟨rfl, rfl⟩ | ⟨rfl, rfl⟩
    exacts [⟨.mul, rfl, rfl⟩, ⟨.div, rfl, rfl⟩, ⟨.rem, rfl, rfl⟩]
  · rcases hmem with ⟨rfl, rfl⟩ | ⟨rfl, rfl⟩
    exacts [⟨.add, rfl, rfl⟩, ⟨.sub, rfl, rfl⟩]
  · rcases hmem with ⟨rfl, rfl⟩ | ⟨rfl, rfl⟩ | ⟨rfl, rfl⟩ | ⟨rfl, rfl⟩
    exacts [⟨.lt, rfl, rfl⟩, ⟨.gt, rfl, rfl⟩, ⟨.ltEq, rfl, rfl⟩, ⟨.gtEq, rfl, rfl⟩]
  · rcases hmem with ⟨rfl, rfl⟩ | ⟨rfl, rfl⟩ | ⟨rfl, rfl⟩ | ⟨rfl, rfl⟩
    exacts [⟨.eq, rfl, rfl⟩, ⟨.notEq, rfl, rfl⟩, ⟨.strictEq, rfl, rfl⟩, ⟨.strictNotEq, rfl, rfl⟩]
  · obtain ⟨rfl, rfl⟩ := hmem
    exact ⟨.and, rfl, rfl⟩
  · obtain ⟨rfl, rfl⟩ := hmem
    exact ⟨.or, rfl, rfl⟩

lemma exists_sign_of_lookup {text : String} {op : UnaryOp}
    (h : unaryOperators.lookup text = some op) : ∃ s : Sign, s.text = text ∧ s.denote = op := by
  have hmem : (text, op) ∈ unaryOperators := mem_of_lookup_eq_some h
  simp only [unaryOperators, List.mem_cons, Prod.mk.injEq, List.not_mem_nil, or_false] at hmem
  rcases hmem with ⟨rfl, rfl⟩ | ⟨rfl, rfl⟩ | ⟨rfl, rfl⟩
  exacts [⟨.plus, rfl, rfl⟩, ⟨.minus, rfl, rfl⟩, ⟨.not, rfl, rfl⟩]

/-! ## Phrases -/

mutual

theorem reads_filterChain (ts : List Token) : Reads (filterChain ts) fun s =>
    ∃ d : FilterChain, d.denote? = some s.value ∧ d.tokens ++ s.rest = ts := by
  rw [filterChain]
  refine (reads_assignment ts).bind fun ⟨input, rest, h⟩ ⟨d, hd, htokens⟩ => ?_
  refine (reads_pipes input rest).bind fun ⟨e, left, h'⟩ ⟨ps, hps, hleft⟩ => ?_
  refine .ok ⟨.of d ps, ?_, ?_⟩
  · simp [FilterChain.denote?, hd, hps]
  · simp [FilterChain.tokens, hleft, htokens]
termination_by (ts.length, 14)

theorem reads_pipes (input : Expr) (ts : List Token) : Reads (pipes input ts) fun s =>
    ∃ d : Pipes, d.denote? input = some s.value ∧ d.tokens ++ s.rest = ts := by
  rw [pipes]
  split
  · exact .ok ⟨.none, rfl, rfl⟩
  · next after h haccept =>
    have hts : ts = mark "|" :: after := eq_of_accept? haccept
    refine (reads_name after).bind fun ⟨filterName, rest, h₁⟩ hname => ?_
    refine (reads_filterArgs rest).bind fun ⟨args, rest', h₂⟩ ⟨as, has, hargs⟩ => ?_
    refine (reads_pipes _ rest').bind fun ⟨e, left, h₃⟩ ⟨ps, hps, hleft⟩ => ?_
    refine .ok ⟨.pipe filterName as ps, ?_, ?_⟩
    · simp [Pipes.denote?, has, hps]
    · simp [Pipes.tokens, hts, hname, hargs, hleft]
termination_by (ts.length, 0)

theorem reads_filterArgs (ts : List Token) : Reads (filterArgs ts) fun s =>
    ∃ d : Assignments, d.denote? = some s.value ∧ d.precededBy ":" ++ s.rest = ts := by
  rw [filterArgs]
  split
  · exact .ok ⟨.none, rfl, rfl⟩
  · next after h haccept =>
    have hts : ts = mark ":" :: after := eq_of_accept? haccept
    refine (reads_assignment after).bind fun ⟨e, rest, h₁⟩ ⟨d, hd, htokens⟩ => ?_
    refine (reads_filterArgs rest).bind fun ⟨es, left, h₂⟩ ⟨ds, hds, hleft⟩ => ?_
    refine .ok ⟨.more d ds, ?_, ?_⟩
    · simp [Assignments.denote?, hd, hds]
    · simp [Assignments.precededBy, hts, ← htokens, hleft]
termination_by (ts.length, 0)

theorem reads_assignment (ts : List Token) : Reads (assignment ts) fun s =>
    ∃ d : Assignment, d.denote? = some s.value ∧ d.tokens ++ s.rest = ts := by
  rw [assignment]
  refine (reads_ternary ts).bind fun ⟨target, rest, h⟩ ⟨d, hd, htokens⟩ => ?_
  dsimp only at hd htokens ⊢
  split
  · exact .ok ⟨.value d, hd, htokens⟩
  · next after h₁ haccept =>
    have hrest : rest = mark "=" :: after := eq_of_accept? haccept
    split
    · next p hp =>
      refine (reads_assignment after).bind fun ⟨value, left, h₂⟩ ⟨v, hv, hleft⟩ => ?_
      have htarget : target = .place p := by
        unfold Expr.place? at hp
        split at hp <;> cases hp
        rfl
      refine .ok ⟨.assign d v, ?_, ?_⟩
      · simp [Assignment.denote?, hd, htarget, hv]
      · simp [Assignment.tokens, hleft, ← hrest, htokens]
    · exact .error _
termination_by (ts.length, 13)

theorem reads_ternary (ts : List Token) : Reads (ternary ts) fun s =>
    ∃ d : Ternary, d.denote? = some s.value ∧ d.tokens ++ s.rest = ts := by
  rw [ternary]
  refine (reads_binary levelCount ts).bind fun ⟨test, rest, h⟩ ⟨d, hd, htokens⟩ => ?_
  dsimp only at hd htokens ⊢
  split
  · exact .ok ⟨.operand d, hd, htokens⟩
  · next after h₁ haccept =>
    have hrest : rest = mark "?" :: after := eq_of_accept? haccept
    refine (reads_assignment after).bind fun ⟨consequent, rest', h₂⟩ ⟨c, hc, hafter⟩ => ?_
    refine (reads_expect ":" rest').bind fun ⟨rest'', h₃⟩ hcolon => ?_
    refine (reads_assignment rest'').bind fun ⟨alternate, left, h₄⟩ ⟨a, ha, hleft⟩ => ?_
    refine .ok ⟨.choice d c a, ?_, ?_⟩
    · simp [Ternary.denote?, hd, hc, ha]
    · dsimp only at hleft hcolon hafter
      simp [Ternary.tokens, hleft, ← hcolon, hafter, ← hrest, htokens]
termination_by (ts.length, 12)

theorem reads_binary (level : ℕ) (ts : List Token) : Reads (binary level ts) fun s =>
    ∃ d : Grammar.Binary level, d.denote? = some s.value ∧ d.tokens ++ s.rest = ts := by
  match level with
  | 0 =>
    rw [binary]
    exact (reads_unary ts).mono fun s ⟨d, hd, htokens⟩ => ⟨.unary d, hd, htokens⟩
  | below + 1 =>
    rw [binary]
    refine (reads_binary below ts).bind fun ⟨left, rest, h⟩ ⟨d, hd, htokens⟩ => ?_
    refine (reads_operands below left rest).bind fun ⟨e, left', h₁⟩ ⟨ds, hds, hleft⟩ => ?_
    refine .ok ⟨.joined d ds, ?_, ?_⟩
    · simp [Binary.denote?, hd, hds]
    · simp [Binary.tokens, hleft, htokens]
termination_by (ts.length, 5 + level)

theorem reads_operands (below : ℕ) (left : Expr) (ts : List Token) :
    Reads (operands below left ts) fun s =>
      ∃ d : Operands below, d.denote? left = some s.value ∧ d.tokens ++ s.rest = ts := by
  rw [operands]
  split
  · exact .ok ⟨.none, rfl, rfl⟩
  · next join after h haccept =>
    obtain ⟨text, hlookup, hts⟩ := eq_of_acceptOf? haccept
    obtain ⟨op, rfl, rfl⟩ := exists_joint_of_lookup hlookup
    refine (reads_binary below after).bind fun ⟨right, rest, h₁⟩ ⟨d, hd, htokens⟩ => ?_
    refine (reads_operands below _ rest).bind fun ⟨e, left', h₂⟩ ⟨ds, hds, hleft⟩ => ?_
    refine .ok ⟨.more op d ds, ?_, ?_⟩
    · simp [Operands.denote?, hd, hds]
    · simp [Operands.tokens, hts, hleft, htokens]
termination_by (ts.length, 0)

theorem reads_unary (ts : List Token) : Reads (unary ts) fun s =>
    ∃ d : Unary, d.denote? = some s.value ∧ d.tokens ++ s.rest = ts := by
  rw [unary]
  split
  · exact (reads_primary ts).mono fun s ⟨d, hd, htokens⟩ => ⟨.primary d, hd, htokens⟩
  · next op after h haccept =>
    obtain ⟨text, hlookup, hts⟩ := eq_of_acceptOf? haccept
    obtain ⟨sign, rfl, rfl⟩ := exists_sign_of_lookup hlookup
    refine (reads_unary after).bind fun ⟨operand, left, h₁⟩ ⟨d, hd, hleft⟩ => ?_
    refine .ok ⟨.sign sign d, ?_, ?_⟩
    · simp [Unary.denote?, hd]
    · simp [Unary.tokens, hts, hleft]
termination_by (ts.length, 4)

theorem reads_primary (ts : List Token) : Reads (primary ts) fun s =>
    ∃ d : Primary, d.denote? = some s.value ∧ d.tokens ++ s.rest = ts := by
  rw [primary]
  refine (reads_atom ts).bind fun ⟨e, rest, h⟩ ⟨d, hd, htokens⟩ => ?_
  refine (reads_chain e rest).bind fun ⟨e', left, h₁⟩ ⟨c, hc, hleft⟩ => ?_
  refine .ok ⟨.of d c, ?_, ?_⟩
  · simp [Primary.denote?, hd, hc]
  · simp [Primary.tokens, hleft, htokens]
termination_by (ts.length, 3)

theorem reads_chain (e : Expr) (ts : List Token) : Reads (chain e ts) fun s =>
    ∃ d : Chain, d.denote? e = some s.value ∧ d.tokens ++ s.rest = ts := by
  rw [chain]
  split
  · next after h haccept =>
    have hts : ts = mark "." :: after := eq_of_accept? haccept
    refine (reads_name after).bind fun ⟨key, rest, h₁⟩ hname => ?_
    refine (reads_chain _ rest).bind fun ⟨e', left, h₂⟩ ⟨c, hc, hleft⟩ => ?_
    exact .ok ⟨.member key c, hc, by simp [Chain.tokens, hts, hname, hleft]⟩
  · next after h _ haccept =>
    have hts : ts = mark "[" :: after := eq_of_accept? haccept
    refine (reads_filterChain after).bind fun ⟨key, rest, h₁⟩ ⟨k, hk, hafter⟩ => ?_
    refine (reads_expect "]" rest).bind fun ⟨rest', h₂⟩ hclose => ?_
    refine (reads_chain _ rest').bind fun ⟨e', left, h₃⟩ ⟨c, hc, hleft⟩ => ?_
    refine .ok ⟨.element k c, ?_, ?_⟩
    · simp [Chain.denote?, hk, hc]
    · dsimp only at hleft hclose hafter
      simp [Chain.tokens, hleft, ← hclose, hafter, hts]
  · next after h _ _ haccept =>
    have hts : ts = mark "(" :: after := eq_of_accept? haccept
    refine (reads_items ")" after).bind fun ⟨args, rest, h₁⟩ ⟨as, has, hafter⟩ => ?_
    refine (reads_expect ")" rest).bind fun ⟨rest', h₂⟩ hclose => ?_
    refine (reads_chain _ rest').bind fun ⟨e', left, h₃⟩ ⟨c, hc, hleft⟩ => ?_
    refine .ok ⟨.call as c, ?_, ?_⟩
    · simp [Chain.denote?, has, hc]
    · dsimp only at hleft hclose hafter
      simp [Chain.tokens, hleft, ← hclose, hafter, hts]
  · exact .ok ⟨.none, rfl, rfl⟩
termination_by (ts.length, 0)

theorem reads_atom (ts : List Token) : Reads (atom ts) fun s =>
    ∃ d : Atom, d.denote? = some s.value ∧ d.tokens ++ s.rest = ts := by
  rw [atom.eq_def]
  split
  · next after h haccept =>
    have hts : ts = mark "(" :: after := eq_of_accept? haccept
    refine (reads_filterChain after).bind fun ⟨e, rest, h₁⟩ ⟨d, hd, hafter⟩ => ?_
    refine (reads_expect ")" rest).bind fun ⟨left, h₂⟩ hclose => ?_
    dsimp only at hclose hafter
    exact .ok ⟨.brackets d, hd, by simp [Atom.tokens, ← hclose, hafter, hts]⟩
  · next after h _ haccept =>
    have hts : ts = mark "[" :: after := eq_of_accept? haccept
    refine (reads_items "]" after).bind fun ⟨es, rest, h₁⟩ ⟨ds, hds, hafter⟩ => ?_
    refine (reads_expect "]" rest).bind fun ⟨left, h₂⟩ hclose => ?_
    dsimp only at hclose hafter
    refine .ok ⟨.array ds, ?_, by simp [Atom.tokens, ← hclose, hafter, hts]⟩
    simp [Atom.denote?, hds]
  · next after h _ _ haccept =>
    have hts : ts = mark "\x7b" :: after := eq_of_accept? haccept
    refine (reads_properties after).bind fun ⟨ps, rest, h₁⟩ ⟨ds, hds, hafter⟩ => ?_
    refine (reads_expect "\x7d" rest).bind fun ⟨left, h₂⟩ hclose => ?_
    dsimp only at hclose hafter
    refine .ok ⟨.object ds, ?_, by simp [Atom.tokens, ← hclose, hafter, hts]⟩
    simp [Atom.denote?, hds]
  · split
    · next t rest _ _ _ _ _ _ =>
      split
      · next ht =>
        have htoken := eq_ident_of_isIdentifier ht
        rcases keyword?_cases t.text with ⟨k, hk, hkeyword⟩ | ⟨hno, hkeyword⟩
        · refine .ok ⟨.keyword k, ?_, ?_⟩
          · simp [Atom.denote?, hkeyword]
          · simp [Atom.tokens, hk, ← htoken]
        · refine .ok ⟨.name t.text hno, ?_, ?_⟩
          · simp [Atom.denote?, hkeyword]
          · simp [Atom.tokens, ← htoken]
      · refine (reads_constant (t :: rest)).bind fun ⟨l, left, h⟩ ⟨c, hc, htokens⟩ => ?_
        refine .ok ⟨.constant c, ?_, htokens.symm⟩
        simp [Atom.denote?, hc]
    · exact .error _
termination_by (ts.length, 2)

theorem reads_items (close : String) (ts : List Token) : Reads (items close ts) fun s =>
    ∃ d : Assignments, d.denote? = some s.value ∧ d.between ++ s.rest = ts := by
  rw [items]
  split
  · exact .ok ⟨.none, rfl, rfl⟩
  · refine (reads_itemList ts).bind fun ⟨es, left, h⟩ ⟨d, ds, hd, hleft⟩ => ?_
    exact .ok ⟨.more d ds, hd, by simpa [Assignments.between] using hleft⟩
termination_by (ts.length, 16)

theorem reads_itemList (ts : List Token) : Reads (itemList ts) fun s =>
    ∃ (d : Assignment) (ds : Assignments), (Assignments.more d ds).denote? = some s.value ∧
      d.tokens ++ (ds.precededBy "," ++ s.rest) = ts := by
  rw [itemList]
  refine (reads_assignment ts).bind fun ⟨e, rest, h⟩ ⟨d, hd, htokens⟩ => ?_
  dsimp only at hd htokens ⊢
  split
  · refine .ok ⟨d, .none, ?_, by simpa [Assignments.precededBy] using htokens⟩
    simp [Assignments.denote?, hd]
  · next after h₁ haccept =>
    have hrest : rest = mark "," :: after := eq_of_accept? haccept
    refine (reads_itemList after).bind fun ⟨es, left, h₂⟩ ⟨d', ds, hds, hleft⟩ => ?_
    refine .ok ⟨d, .more d' ds, ?_, ?_⟩
    · rw [Assignments.denote?, hd, hds]
      rfl
    · dsimp only at hleft
      simp [Assignments.precededBy, hleft, ← hrest, htokens]
termination_by (ts.length, 15)

theorem reads_properties (ts : List Token) : Reads (properties ts) fun s =>
    ∃ d : Properties, d.denote? = some s.value ∧ d.between ++ s.rest = ts := by
  rw [properties]
  split
  · exact .ok ⟨.none, rfl, rfl⟩
  · refine (reads_propertyList ts).bind fun ⟨ps, left, h⟩ ⟨k, v, ds, hd, hleft⟩ => ?_
    exact .ok ⟨.more k v ds, hd, by simpa [Properties.between] using hleft⟩
termination_by (ts.length, 16)

theorem reads_propertyList (ts : List Token) : Reads (propertyList ts) fun s =>
    ∃ (k : Key) (v : Assignment) (ds : Properties),
      (Properties.more k v ds).denote? = some s.value ∧
      k.token :: mark ":" :: (v.tokens ++ (ds.preceded ++ s.rest)) = ts := by
  rw [propertyList]
  refine (reads_propertyKey ts).bind fun ⟨key, rest, h⟩ ⟨k, hk, hkey⟩ => ?_
  refine (reads_expect ":" rest).bind fun ⟨rest', h₁⟩ hcolon => ?_
  refine (reads_assignment rest').bind fun ⟨value, rest'', h₂⟩ ⟨v, hv, hvalue⟩ => ?_
  dsimp only at hk hkey hcolon hv hvalue ⊢
  split
  · refine .ok ⟨k, v, .none, ?_, ?_⟩
    · simp [Properties.denote?, hv, hk]
    · simp [Properties.preceded, hvalue, ← hcolon, ← hkey]
  · next after h₃ haccept =>
    have hrest : rest'' = mark "," :: after := eq_of_accept? haccept
    refine (reads_propertyList after).bind fun ⟨ps, left, h₄⟩ ⟨k', v', ds, hds, hleft⟩ => ?_
    refine .ok ⟨k, v, .more k' v' ds, ?_, ?_⟩
    · rw [Properties.denote?, hv, hds, hk]
      rfl
    · dsimp only at hleft
      simp [Properties.preceded, hleft, ← hrest, hvalue, ← hcolon, ← hkey]
termination_by (ts.length, 15)

end

/-! ## Programs -/

theorem reads_statements (ts : List Token) : Reads (statements ts) fun body =>
    ∃ d : Program, d.Derives ts body := by
  match ts with
  | [] =>
    rw [statements]
    exact .ok ⟨⟨none, []⟩, rfl, rfl⟩
  | t :: rest =>
    rw [statements]
    split
    · next ht =>
      -- a semicolon after a missing statement
      refine (reads_statements rest).mono fun body hbody => ?_
      obtain ⟨d, htokens, hd⟩ := hbody
      refine ⟨⟨none, d.first :: d.rest⟩, ?_, hd⟩
      rw [eq_mark_of_isOperator ht, ← htokens]
      simp [Program.tokens, statementTokens]
    · refine (reads_filterChain (t :: rest)).bind fun r hr => ?_
      obtain ⟨e, left, h⟩ := r
      obtain ⟨c, hc, hleft⟩ := hr
      dsimp only at hc hleft ⊢
      split
      · refine .ok ⟨⟨some c, []⟩, ?_, ?_⟩
        · simpa [Program.tokens, statementTokens] using hleft
        · simp [Program.denote?, hc]
      · next t' rest' h' =>
        split
        · next ht' =>
          refine (reads_statements rest').bind fun body hbody => ?_
          obtain ⟨d, htokens, hd⟩ := hbody
          refine .ok ⟨⟨some c, d.first :: d.rest⟩, ?_, ?_⟩
          · rw [← hleft, eq_mark_of_isOperator ht', ← htokens]
            simp [Program.tokens, statementTokens]
          · rw [Program.denote?] at hd ⊢
            change (c :: (d.first :: d.rest).filterMap id).mapM _ = _
            rw [List.mapM_cons, hc, hd]
            rfl
        · exact .error _
termination_by ts.length
decreasing_by
  · exact Nat.lt_of_succ_lt ‹_›
  · exact Nat.lt_succ_self _

end DataBinding.Phrase
