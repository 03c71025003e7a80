import DataBinding.Proofs.Grammar

/-!
# The grammar is unambiguous

A list of tokens has at most one derivation that stands for a tree.

Two derivations of one kind are compared with whatever stands behind them.  A phrase of level `n` is
over before a token that goes on with no phrase of that level: `rank` is the loosest level that a
token goes on with, and `Closes n` says of what stands behind a phrase that it begins with a token
of a higher rank.  If both phrases are over, then they are one phrase, and what is behind them is
the same.

The grammar alone leaves `a ? b : c = d` open, since the alternate may end with an assignment and
the choice may be the left side of one.  A choice is no place, so only the first stands for a tree;
that is why a choice has level eight and not seven.
-/

namespace DataBinding.Grammar

/-! ## What may stand behind a phrase -/

/-- The loosest level that each mark goes on with: zero for what goes on with an operand, and from
there on in the order of binding. -/
def ranks : List (String × ℕ) :=
  [(".", 0), ("[", 0), ("(", 0), ("*", 1), ("/", 1), ("%", 1), ("+", 2), ("-", 2), ("<", 3),
    (">", 3), ("<=", 3), (">=", 3), ("==", 4), ("!=", 4), ("===", 4), ("!==", 4), ("&&", 5),
    ("||", 6), ("?", 7), ("=", 8), (":", 9), ("|", 10), (",", 11)]

/-- The rank of a token.  Whatever goes on with no phrase has rank twelve. -/
def rank (t : Token) : ℕ :=
  match t.kind with
  | .operator => (ranks.lookup t.text).getD 12
  | _ => 12

@[simp]
lemma rank_joint {n : ℕ} (op : Joint n) : rank (mark op.text) = n := by
  cases op <;> rfl

/-- A phrase of the level is over before these tokens. -/
def Closes (n : ℕ) (ts : List Token) : Prop := ∀ t ∈ ts.head?, n < rank t

namespace Closes

variable {n m : ℕ} {t : Token} {ts : List Token}

lemma nil : Closes n [] := by
  simp [Closes]

lemma cons (h : n < rank t) : Closes n (t :: ts) := by
  simpa [Closes] using h

lemma lt_rank (h : Closes n (t :: ts)) : n < rank t := h t rfl

lemma mono (h : Closes n ts) (hm : m ≤ n) : Closes m ts := fun t ht =>
  Nat.lt_of_le_of_lt hm (h t ht)

end Closes

/-! ## What a phrase begins with -/

/-- The marks that no phrase begins with and that stand where one may be missing. -/
def ends : List String := [")", "]", ";"]

/-- The tokens begin with one that may begin a phrase. -/
def Opens : List Token → Prop
  | [] => False
  | t :: _ => ∀ text ∈ ends, t ≠ mark text

namespace Opens

variable {ts : List Token}

lemma append (h : Opens ts) (rest : List Token) : Opens (ts ++ rest) := by
  cases ts with
  | nil => exact h.elim
  | cons t ts => exact h

lemma ne_cons {text : String} (h : Opens ts) (hend : text ∈ ends) (rest : List Token) :
    ts ≠ mark text :: rest := by
  rintro rfl
  exact h text hend rfl

end Opens

lemma Constant.opens (c : Constant) (ts : List Token) : Opens (c.token :: ts) := by
  cases c <;> simp [Opens, token]

lemma opens_ident (s : String) (ts : List Token) : Opens (ident s :: ts) := by
  simp [Opens]

lemma Atom.opens (d : Atom) : Opens d.tokens := by
  cases d with
  | brackets e => simp [Opens, tokens, ends]
  | array items => simp [Opens, tokens, ends]
  | object properties => simp [Opens, tokens, ends]
  | keyword k => exact opens_ident _ _
  | name s _ => exact opens_ident _ _
  | constant c => exact c.opens _

lemma Unary.opens (d : Unary) : Opens d.tokens := by
  match d with
  | .sign op operand => cases op <;> simp [Opens, tokens, ends, Sign.text]
  | .primary (.of start chain) => exact start.opens.append chain.tokens

lemma Binary.opens {n : ℕ} (d : Binary n) : Opens d.tokens := by
  match d with
  | .unary e => exact e.opens
  | .joined first rest => exact first.opens.append rest.tokens

lemma Ternary.opens (d : Ternary) : Opens d.tokens := by
  cases d with
  | operand e => exact e.opens
  | choice test consequent alternate => exact test.opens.append _

lemma Assignment.opens (d : Assignment) : Opens d.tokens := by
  cases d with
  | value e => exact e.opens
  | assign target value => exact target.opens.append _

lemma FilterChain.opens : (d : FilterChain) → Opens d.tokens
  | .of input pipes => input.opens.append pipes.tokens

/-! ## What stands behind the parts of a phrase -/

lemma Operands.closes {n : ℕ} (d : Operands n) {r : List Token} (hr : Closes (n + 1) r) :
    Closes n (d.tokens ++ r) := by
  cases d with
  | none => exact hr.mono (Nat.le_succ n)
  | more op right rest => exact .cons (by simp)

lemma Pipes.closes (d : Pipes) {r : List Token} (hr : Closes 10 r) : Closes 9 (d.tokens ++ r) := by
  cases d with
  | none => exact hr.mono (by decide)
  | pipe name args rest => exact .cons (by decide)

lemma Assignments.closes (d : Assignments) {text : String} {r : List Token}
    (htext : 8 < rank (mark text)) (hr : Closes 8 r) : Closes 8 (d.precededBy text ++ r) := by
  cases d with
  | none => exact hr
  | more first rest => exact .cons htext

lemma Properties.closes (d : Properties) {r : List Token} (hr : Closes 8 r) :
    Closes 8 (d.preceded ++ r) := by
  cases d with
  | none => exact hr
  | more key value rest => exact .cons (by decide)

lemma Assignment.denote?_assign {target : Ternary} {value : Assignment} {e : Expr} :
    (Assignment.assign target value).denote? = some e ↔
      ∃ p v, target.denote? = some (.place p) ∧ value.denote? = some v ∧ .assign p v = e := by
  constructor
  · intro h
    obtain ⟨t, ht, h⟩ := Option.bind_eq_some_iff.1 h
    cases t with
    | place p =>
      obtain ⟨v, hv, h⟩ := Option.bind_eq_some_iff.1 h
      exact ⟨p, v, ht, hv, Option.some.inj h⟩
    | _ => cases h
  · rintro ⟨p, v, hp, hv, rfl⟩
    simp [denote?, hp, hv]

/-- The loosest level that a choice goes on with is that of its alternate. -/
def Ternary.level : Ternary → ℕ
  | .operand _ => 7
  | .choice .. => 8

/-- A choice is no place. -/
lemma Ternary.level_eq_of_denote {d : Ternary} {p : Place} (hd : d.denote? = some (.place p)) :
    d.level = 7 := by
  cases d with
  | operand e => rfl
  | choice test consequent alternate =>
    simp [denote?, Option.bind_eq_some_iff] at hd

lemma Ternary.level_le (d : Ternary) : d.level ≤ 8 := by
  cases d <;> simp [level]

lemma closes_of_denote {d : Ternary} {p : Place} {ts : List Token}
    (hd : d.denote? = some (.place p)) : Closes d.level (mark "=" :: ts) := by
  rw [Ternary.level_eq_of_denote hd]
  exact .cons (by decide)

/-! ## One derivation -/

@[simp]
lemma Constant.token_ne_mark (c : Constant) (text : String) : c.token ≠ mark text := by
  cases c <;> simp [token]

@[simp]
lemma Constant.mark_ne_token (c : Constant) (text : String) : mark text ≠ c.token :=
  (c.token_ne_mark text).symm

@[simp]
lemma Constant.token_ne_ident (c : Constant) (s : String) : c.token ≠ ident s := by
  cases c <;> simp [token]

@[simp]
lemma Constant.ident_ne_token (c : Constant) (s : String) : ident s ≠ c.token :=
  (c.token_ne_ident s).symm

lemma Key.token_ne_mark (k : Key) (text : String) : k.token ≠ mark text := by
  cases k <;> simp [token]

lemma Joint.text_injective {n : ℕ} {op op' : Joint n} (h : op.text = op'.text) : op = op' := by
  cases op <;> cases op' <;> first | rfl | simp [text] at h

lemma Sign.text_injective {op op' : Sign} (h : op.text = op'.text) : op = op' := by
  cases op <;> cases op' <;> first | rfl | simp [text] at h

lemma Keyword.text_injective {k k' : Keyword} (h : k.text = k'.text) : k = k' := by
  cases k <;> cases k' <;> first | rfl | simp [text] at h

lemma Constant.token_injective {c c' : Constant} (h : c.token = c'.token) : c = c' := by
  cases c <;> cases c' <;> simp_all [token]

lemma Key.token_injective {k k' : Key} (h : k.token = k'.token) : k = k' := by
  match k, k' with
  | .name s, .name s' => simpa [token] using h
  | .name s, .constant c => simp [token] at h
  | .constant c, .name s => simp [token] at h
  | .constant c, .constant c' => rw [Constant.token_injective h]

lemma Sign.ne_atom (op : Sign) (start : Atom) (ts us : List Token) :
    mark op.text :: ts ≠ start.tokens ++ us := by
  intro h
  cases start <;> cases op <;> simp [Atom.tokens, text] at h

/-- With a comma before them, assignments between brackets are read as those behind another are. -/
lemma Assignments.precededBy_of_between {d d' : Assignments} {close : String} {r r' : List Token}
    (hends : close ∈ ends) (h : d.between ++ mark close :: r = d'.between ++ mark close :: r') :
    d.precededBy "," ++ mark close :: r = d'.precededBy "," ++ mark close :: r' := by
  match d, d' with
  | .none, .none => exact h
  | .none, .more first rest =>
    exact absurd h.symm (((first.opens.append _).append _).ne_cons hends _)
  | .more first rest, .none =>
    exact absurd h (((first.opens.append _).append _).ne_cons hends _)
  | .more first rest, .more first' rest' => exact congrArg (mark "," :: ·) h

lemma Properties.preceded_of_between {d d' : Properties} {r r' : List Token}
    (h : d.between ++ mark "\x7d" :: r = d'.between ++ mark "\x7d" :: r') :
    d.preceded ++ mark "\x7d" :: r = d'.preceded ++ mark "\x7d" :: r' := by
  match d, d' with
  | .none, .none => exact h
  | .none, .more key value rest => exact absurd (List.cons.inj h).1.symm (key.token_ne_mark _)
  | .more key value rest, .none => exact absurd (List.cons.inj h).1 (key.token_ne_mark _)
  | .more key value rest, .more key' value' rest' => exact congrArg (mark "," :: ·) h

mutual

theorem FilterChain.eq_of_tokens {d d' : FilterChain} {e e' : Expr} {r r' : List Token}
    (hd : d.denote? = some e) (hd' : d'.denote? = some e') (hr : Closes 10 r) (hr' : Closes 10 r')
    (h : d.tokens ++ r = d'.tokens ++ r') : d = d' ∧ r = r' := by
  match d, d' with
  | .of input pipes, .of input' pipes' =>
    obtain ⟨i, hi, hpipes⟩ := Option.bind_eq_some_iff.1 hd
    obtain ⟨i', hi', hpipes'⟩ := Option.bind_eq_some_iff.1 hd'
    simp only [FilterChain.tokens, List.append_assoc] at h
    obtain ⟨rfl, h₁⟩ := Assignment.eq_of_tokens hi hi' ((pipes.closes hr).mono (by decide))
      ((pipes'.closes hr').mono (by decide)) h
    obtain ⟨rfl, h₂⟩ := Pipes.eq_of_tokens hpipes hpipes' hr hr' h₁
    exact ⟨rfl, h₂⟩
termination_by structural d

theorem Pipes.eq_of_tokens {d d' : Pipes} {i i' e e' : Expr} {r r' : List Token}
    (hd : d.denote? i = some e) (hd' : d'.denote? i' = some e') (hr : Closes 10 r)
    (hr' : Closes 10 r') (h : d.tokens ++ r = d'.tokens ++ r') : d = d' ∧ r = r' := by
  match d, d' with
  | .none, .none => exact ⟨rfl, h⟩
  | .none, .pipe name args rest =>
    obtain rfl : r = _ := h
    exact absurd hr.lt_rank (by decide)
  | .pipe name args rest, .none =>
    obtain rfl : _ = r' := h
    exact absurd hr'.lt_rank (by decide)
  | .pipe name args rest, .pipe name' args' rest' =>
    obtain ⟨as, has, hrest⟩ := Option.bind_eq_some_iff.1 hd
    obtain ⟨as', has', hrest'⟩ := Option.bind_eq_some_iff.1 hd'
    simp only [Pipes.tokens, List.cons_append, List.append_assoc, List.cons.injEq, Token.mk.injEq,
      and_true, true_and] at h
    obtain ⟨rfl, h₁⟩ := h
    obtain ⟨rfl, h₂⟩ := Assignments.eq_of_precededBy ":" rfl (by decide) has has'
      (rest.closes hr) (rest'.closes hr') h₁
    obtain ⟨rfl, h₃⟩ := Pipes.eq_of_tokens hrest hrest' hr hr' h₂
    exact ⟨rfl, h₃⟩
termination_by structural d

theorem Assignments.eq_of_precededBy {d d' : Assignments} {es es' : List Expr} {n : ℕ}
    {r r' : List Token} (text : String) (htext : rank (mark text) = n) (hn : 8 < n)
    (hd : d.denote? = some es) (hd' : d'.denote? = some es') (hr : Closes n r) (hr' : Closes n r')
    (h : d.precededBy text ++ r = d'.precededBy text ++ r') : d = d' ∧ r = r' := by
  subst htext
  match d, d' with
  | .none, .none => exact ⟨rfl, h⟩
  | .none, .more first rest =>
    obtain rfl : r = _ := h
    exact absurd hr.lt_rank (Nat.lt_irrefl _)
  | .more first rest, .none =>
    obtain rfl : _ = r' := h
    exact absurd hr'.lt_rank (Nat.lt_irrefl _)
  | .more first rest, .more first' rest' =>
    obtain ⟨e, he, hd⟩ := Option.bind_eq_some_iff.1 hd
    obtain ⟨e', he', hd'⟩ := Option.bind_eq_some_iff.1 hd'
    obtain ⟨es, hes, -⟩ := Option.bind_eq_some_iff.1 hd
    obtain ⟨es', hes', -⟩ := Option.bind_eq_some_iff.1 hd'
    simp only [Assignments.precededBy, List.cons_append, List.append_assoc, List.cons.injEq,
      true_and] at h
    obtain ⟨rfl, h₁⟩ := Assignment.eq_of_tokens he he' (rest.closes hn (hr.mono (Nat.le_of_lt hn)))
      (rest'.closes hn (hr'.mono (Nat.le_of_lt hn))) h
    obtain ⟨rfl, h₂⟩ := Assignments.eq_of_precededBy text rfl hn hes hes' hr hr' h₁
    exact ⟨rfl, h₂⟩
termination_by structural d

theorem Assignment.eq_of_tokens {d d' : Assignment} {e e' : Expr} {r r' : List Token}
    (hd : d.denote? = some e) (hd' : d'.denote? = some e') (hr : Closes 8 r) (hr' : Closes 8 r')
    (h : d.tokens ++ r = d'.tokens ++ r') : d = d' ∧ r = r' := by
  match d, d' with
  | .value t, .value t' =>
    obtain ⟨rfl, h₁⟩ := Ternary.eq_of_tokens hd hd' (hr.mono t.level_le) (hr'.mono t'.level_le) h
    exact ⟨rfl, h₁⟩
  | .value t, .assign target value =>
    obtain ⟨p, v, hp, -, -⟩ := Assignment.denote?_assign.1 hd'
    simp only [Assignment.tokens, List.append_assoc, List.cons_append] at h
    obtain ⟨rfl, rfl⟩ := Ternary.eq_of_tokens hd hp (hr.mono t.level_le) (closes_of_denote hp) h
    exact absurd hr.lt_rank (by decide)
  | .assign target value, .value t =>
    obtain ⟨p, v, hp, -, -⟩ := Assignment.denote?_assign.1 hd
    simp only [Assignment.tokens, List.append_assoc, List.cons_append] at h
    obtain ⟨rfl, rfl⟩ := Ternary.eq_of_tokens hp hd' (closes_of_denote hp) (hr'.mono t.level_le) h
    exact absurd hr'.lt_rank (by decide)
  | .assign target value, .assign target' value' =>
    obtain ⟨p, v, hp, hv, -⟩ := Assignment.denote?_assign.1 hd
    obtain ⟨p', v', hp', hv', -⟩ := Assignment.denote?_assign.1 hd'
    simp only [Assignment.tokens, List.append_assoc, List.cons_append] at h
    obtain ⟨rfl, h₁⟩ := Ternary.eq_of_tokens hp hp' (closes_of_denote hp) (closes_of_denote hp') h
    obtain ⟨rfl, h₂⟩ := Assignment.eq_of_tokens hv hv' hr hr' (List.cons.inj h₁).2
    exact ⟨rfl, h₂⟩
termination_by structural d

theorem Ternary.eq_of_tokens {d d' : Ternary} {e e' : Expr} {r r' : List Token}
    (hd : d.denote? = some e) (hd' : d'.denote? = some e') (hr : Closes d.level r)
    (hr' : Closes d'.level r') (h : d.tokens ++ r = d'.tokens ++ r') : d = d' ∧ r = r' := by
  match d, d' with
  | .operand b, .operand b' =>
    obtain ⟨rfl, h₁⟩ :=
      Binary.eq_of_tokens hd hd' (hr.mono (Nat.le_succ 6)) (hr'.mono (Nat.le_succ 6)) h
    exact ⟨rfl, h₁⟩
  | .operand b, .choice test consequent alternate =>
    obtain ⟨t, ht, -⟩ := Option.bind_eq_some_iff.1 hd'
    simp only [Ternary.tokens, List.append_assoc, List.cons_append] at h
    obtain ⟨-, rfl⟩ := Binary.eq_of_tokens hd ht (hr.mono (Nat.le_succ 6)) (.cons (by decide)) h
    exact (Nat.lt_irrefl 7 hr.lt_rank).elim
  | .choice test consequent alternate, .operand b =>
    obtain ⟨t, ht, -⟩ := Option.bind_eq_some_iff.1 hd
    simp only [Ternary.tokens, List.append_assoc, List.cons_append] at h
    obtain ⟨-, rfl⟩ := Binary.eq_of_tokens ht hd' (.cons (by decide)) (hr'.mono (Nat.le_succ 6)) h
    exact (Nat.lt_irrefl 7 hr'.lt_rank).elim
  | .choice test consequent alternate, .choice test' consequent' alternate' =>
    obtain ⟨t, ht, hd⟩ := Option.bind_eq_some_iff.1 hd
    obtain ⟨c, hc, hd⟩ := Option.bind_eq_some_iff.1 hd
    obtain ⟨a, ha, -⟩ := Option.bind_eq_some_iff.1 hd
    obtain ⟨t', ht', hd'⟩ := Option.bind_eq_some_iff.1 hd'
    obtain ⟨c', hc', hd'⟩ := Option.bind_eq_some_iff.1 hd'
    obtain ⟨a', ha', -⟩ := Option.bind_eq_some_iff.1 hd'
    simp only [Ternary.tokens, List.append_assoc, List.cons_append] at h
    obtain ⟨rfl, h₁⟩ := Binary.eq_of_tokens ht ht' (.cons (by decide)) (.cons (by decide)) h
    obtain ⟨rfl, h₂⟩ := Assignment.eq_of_tokens hc hc' (.cons (by decide)) (.cons (by decide))
      (List.cons.inj h₁).2
    obtain ⟨rfl, h₃⟩ := Assignment.eq_of_tokens ha ha' hr hr' (List.cons.inj h₂).2
    exact ⟨rfl, h₃⟩
termination_by structural d

theorem Binary.eq_of_tokens {n : ℕ} {d d' : Binary n} {e e' : Expr} {r r' : List Token}
    (hd : d.denote? = some e) (hd' : d'.denote? = some e') (hr : Closes n r) (hr' : Closes n r')
    (h : d.tokens ++ r = d'.tokens ++ r') : d = d' ∧ r = r' := by
  match d, d' with
  | .unary u, .unary u' =>
    obtain ⟨rfl, h₁⟩ := Unary.eq_of_tokens hd hd' hr hr' h
    exact ⟨rfl, h₁⟩
  | .joined first rest, .joined first' rest' =>
    obtain ⟨f, hf, hrest⟩ := Option.bind_eq_some_iff.1 hd
    obtain ⟨f', hf', hrest'⟩ := Option.bind_eq_some_iff.1 hd'
    simp only [Binary.tokens, List.append_assoc] at h
    obtain ⟨rfl, h₁⟩ := Binary.eq_of_tokens hf hf' (rest.closes hr) (rest'.closes hr') h
    obtain ⟨rfl, h₂⟩ := Operands.eq_of_tokens hrest hrest' hr hr' h₁
    exact ⟨rfl, h₂⟩
termination_by structural d

theorem Operands.eq_of_tokens {n : ℕ} {d d' : Operands n} {i i' e e' : Expr} {r r' : List Token}
    (hd : d.denote? i = some e) (hd' : d'.denote? i' = some e') (hr : Closes (n + 1) r)
    (hr' : Closes (n + 1) r') (h : d.tokens ++ r = d'.tokens ++ r') : d = d' ∧ r = r' := by
  match d, d' with
  | .none, .none => exact ⟨rfl, h⟩
  | .none, .more op right rest =>
    obtain rfl : r = _ := h
    exact absurd hr.lt_rank (by simp)
  | .more op right rest, .none =>
    obtain rfl : _ = r' := h
    exact absurd hr'.lt_rank (by simp)
  | .more op right rest, .more op' right' rest' =>
    obtain ⟨b, hb, hrest⟩ := Option.bind_eq_some_iff.1 hd
    obtain ⟨b', hb', hrest'⟩ := Option.bind_eq_some_iff.1 hd'
    simp only [Operands.tokens, List.cons_append, List.append_assoc, List.cons.injEq,
      Token.mk.injEq, and_true] at h
    obtain ⟨hop, h₁⟩ := h
    obtain rfl := Joint.text_injective hop
    obtain ⟨rfl, h₂⟩ := Binary.eq_of_tokens hb hb' (rest.closes hr) (rest'.closes hr') h₁
    obtain ⟨rfl, h₃⟩ := Operands.eq_of_tokens hrest hrest' hr hr' h₂
    exact ⟨rfl, h₃⟩
termination_by structural d

theorem Unary.eq_of_tokens {d d' : Unary} {e e' : Expr} {r r' : List Token}
    (hd : d.denote? = some e) (hd' : d'.denote? = some e') (hr : Closes 0 r) (hr' : Closes 0 r')
    (h : d.tokens ++ r = d'.tokens ++ r') : d = d' ∧ r = r' := by
  match d, d' with
  | .sign op operand, .sign op' operand' =>
    obtain ⟨o, ho, -⟩ := Option.bind_eq_some_iff.1 hd
    obtain ⟨o', ho', -⟩ := Option.bind_eq_some_iff.1 hd'
    simp only [Unary.tokens, List.cons_append, List.cons.injEq, Token.mk.injEq, and_true] at h
    obtain ⟨hop, h₁⟩ := h
    obtain rfl := Sign.text_injective hop
    obtain ⟨rfl, h₂⟩ := Unary.eq_of_tokens ho ho' hr hr' h₁
    exact ⟨rfl, h₂⟩
  | .sign op operand, .primary (.of start chain) =>
    simp only [Unary.tokens, Primary.tokens, List.append_assoc] at h
    exact absurd h (op.ne_atom start _ _)
  | .primary (.of start chain), .sign op operand =>
    simp only [Unary.tokens, Primary.tokens, List.append_assoc] at h
    exact absurd h.symm (op.ne_atom start _ _)
  | .primary (.of start chain), .primary (.of start' chain') =>
    obtain ⟨a, ha, hchain⟩ := Option.bind_eq_some_iff.1 hd
    obtain ⟨a', ha', hchain'⟩ := Option.bind_eq_some_iff.1 hd'
    simp only [Unary.tokens, Primary.tokens, List.append_assoc] at h
    obtain ⟨rfl, h₁⟩ := Atom.eq_of_tokens ha ha' h
    obtain ⟨rfl, h₂⟩ := Chain.eq_of_tokens hchain hchain' hr hr' h₁
    exact ⟨rfl, h₂⟩
termination_by structural d

theorem Chain.eq_of_tokens {d d' : Chain} {i i' e e' : Expr} {r r' : List Token}
    (hd : d.denote? i = some e) (hd' : d'.denote? i' = some e') (hr : Closes 0 r)
    (hr' : Closes 0 r') (h : d.tokens ++ r = d'.tokens ++ r') : d = d' ∧ r = r' := by
  match d, d' with
  | .none, .none => exact ⟨rfl, h⟩
  | .none, .member .. | .none, .element .. | .none, .call .. =>
    obtain rfl : r = _ := h
    exact absurd hr.lt_rank (by decide)
  | .member .., .none | .element .., .none | .call .., .none =>
    obtain rfl : _ = r' := h
    exact absurd hr'.lt_rank (by decide)
  | .member .., .element .. | .member .., .call .. | .element .., .member .. | .element .., .call ..
  | .call .., .member .. | .call .., .element .. => simp [Chain.tokens] at h
  | .member key rest, .member key' rest' =>
    rw [Chain.denote?] at hd hd'
    simp only [Chain.tokens, List.cons_append, List.cons.injEq, Token.mk.injEq, and_true,
      true_and] at h
    obtain ⟨rfl, h₁⟩ := h
    obtain ⟨rfl, h₂⟩ := Chain.eq_of_tokens hd hd' hr hr' h₁
    exact ⟨rfl, h₂⟩
  | .element key rest, .element key' rest' =>
    obtain ⟨k, hk, hrest⟩ := Option.bind_eq_some_iff.1 hd
    obtain ⟨k', hk', hrest'⟩ := Option.bind_eq_some_iff.1 hd'
    simp only [Chain.tokens, List.cons_append, List.append_assoc, List.cons.injEq, true_and] at h
    obtain ⟨rfl, h₁⟩ := FilterChain.eq_of_tokens hk hk' (.cons (by decide)) (.cons (by decide)) h
    obtain ⟨rfl, h₂⟩ := Chain.eq_of_tokens hrest hrest' hr hr' (List.cons.inj h₁).2
    exact ⟨rfl, h₂⟩
  | .call args rest, .call args' rest' =>
    obtain ⟨as, has, hrest⟩ := Option.bind_eq_some_iff.1 hd
    obtain ⟨as', has', hrest'⟩ := Option.bind_eq_some_iff.1 hd'
    simp only [Chain.tokens, List.cons_append, List.append_assoc, List.cons.injEq, true_and] at h
    obtain ⟨rfl, h₁⟩ := Assignments.eq_of_precededBy "," rfl (by decide) has has'
      (.cons (by decide)) (.cons (by decide)) (Assignments.precededBy_of_between (by decide) h)
    obtain ⟨rfl, h₂⟩ := Chain.eq_of_tokens hrest hrest' hr hr' (List.cons.inj h₁).2
    exact ⟨rfl, h₂⟩
termination_by structural d

theorem Atom.eq_of_tokens {d d' : Atom} {e e' : Expr} {r r' : List Token}
    (hd : d.denote? = some e) (hd' : d'.denote? = some e') (h : d.tokens ++ r = d'.tokens ++ r') :
    d = d' ∧ r = r' := by
  match d with
  | .brackets f =>
    match d' with
    | .brackets f' =>
      simp only [Atom.tokens, List.cons_append, List.append_assoc, List.cons.injEq, true_and,
        List.nil_append] at h
      obtain ⟨rfl, h₁⟩ := FilterChain.eq_of_tokens hd hd' (.cons (by decide)) (.cons (by decide)) h
      exact ⟨rfl, (List.cons.inj h₁).2⟩
    | .array _ | .object _ | .keyword _ | .name .. | .constant _ => simp [Atom.tokens] at h
  | .array items =>
    match d' with
    | .array items' =>
      obtain ⟨es, hes, -⟩ := Option.bind_eq_some_iff.1 hd
      obtain ⟨es', hes', -⟩ := Option.bind_eq_some_iff.1 hd'
      simp only [Atom.tokens, List.cons_append, List.append_assoc, List.cons.injEq, true_and,
        List.nil_append] at h
      obtain ⟨rfl, h₁⟩ := Assignments.eq_of_precededBy "," rfl (by decide) hes hes'
        (.cons (by decide)) (.cons (by decide)) (Assignments.precededBy_of_between (by decide) h)
      exact ⟨rfl, (List.cons.inj h₁).2⟩
    | .brackets _ | .object _ | .keyword _ | .name .. | .constant _ => simp [Atom.tokens] at h
  | .object properties =>
    match d' with
    | .object properties' =>
      obtain ⟨ps, hps, -⟩ := Option.bind_eq_some_iff.1 hd
      obtain ⟨ps', hps', -⟩ := Option.bind_eq_some_iff.1 hd'
      simp only [Atom.tokens, List.cons_append, List.append_assoc, List.cons.injEq, true_and,
        List.nil_append] at h
      obtain ⟨rfl, h₁⟩ := Properties.eq_of_preceded hps hps' (.cons (by decide))
        (.cons (by decide)) (Properties.preceded_of_between h)
      exact ⟨rfl, (List.cons.inj h₁).2⟩
    | .brackets _ | .array _ | .keyword _ | .name .. | .constant _ => simp [Atom.tokens] at h
  | .keyword k =>
    match d' with
    | .keyword k' =>
      simp only [Atom.tokens, List.cons_append, List.cons.injEq, Token.mk.injEq, and_true,
        List.nil_append] at h
      rw [Keyword.text_injective h.1]
      exact ⟨rfl, h.2⟩
    | .name s hs =>
      simp only [Atom.tokens, List.cons_append, List.cons.injEq, Token.mk.injEq, and_true] at h
      exact absurd h.1 (hs k)
    | .brackets _ | .array _ | .object _ | .constant _ => simp [Atom.tokens] at h
  | .name s hs =>
    match d' with
    | .name s' hs' =>
      simp only [Atom.tokens, List.cons_append, List.cons.injEq, Token.mk.injEq, and_true,
        List.nil_append] at h
      obtain ⟨rfl, h₁⟩ := h
      exact ⟨rfl, h₁⟩
    | .keyword k =>
      simp only [Atom.tokens, List.cons_append, List.cons.injEq, Token.mk.injEq, and_true] at h
      exact absurd h.1.symm (hs k)
    | .brackets _ | .array _ | .object _ | .constant _ => simp [Atom.tokens] at h
  | .constant c =>
    match d' with
    | .constant c' =>
      simp only [Atom.tokens, List.cons_append, List.cons.injEq, List.nil_append] at h
      rw [Constant.token_injective h.1]
      exact ⟨rfl, h.2⟩
    | .brackets _ | .array _ | .object _ | .keyword _ | .name .. => simp [Atom.tokens] at h
termination_by structural d

theorem Properties.eq_of_preceded {d d' : Properties} {ps ps' : List (PropertyKey × Expr)}
    {r r' : List Token} (hd : d.denote? = some ps) (hd' : d'.denote? = some ps')
    (hr : Closes 11 r) (hr' : Closes 11 r') (h : d.preceded ++ r = d'.preceded ++ r') :
    d = d' ∧ r = r' := by
  match d, d' with
  | .none, .none => exact ⟨rfl, h⟩
  | .none, .more key value rest =>
    obtain rfl : r = _ := h
    exact absurd hr.lt_rank (by decide)
  | .more key value rest, .none =>
    obtain rfl : _ = r' := h
    exact absurd hr'.lt_rank (by decide)
  | .more key value rest, .more key' value' rest' =>
    obtain ⟨v, hv, hd⟩ := Option.bind_eq_some_iff.1 hd
    obtain ⟨v', hv', hd'⟩ := Option.bind_eq_some_iff.1 hd'
    obtain ⟨ps, hps, -⟩ := Option.bind_eq_some_iff.1 hd
    obtain ⟨ps', hps', -⟩ := Option.bind_eq_some_iff.1 hd'
    simp only [Properties.preceded, List.cons_append, List.append_assoc, List.cons.injEq,
      true_and] at h
    obtain ⟨hkey, h₁⟩ := h
    obtain rfl := Key.token_injective hkey
    obtain ⟨rfl, h₂⟩ := Assignment.eq_of_tokens hv hv' (rest.closes (hr.mono (by decide)))
      (rest'.closes (hr'.mono (by decide))) h₁
    obtain ⟨rfl, h₃⟩ := Properties.eq_of_preceded hps hps' hr hr' h₂
    exact ⟨rfl, h₃⟩
termination_by structural d

end

/-! ## Programs -/

/-- The tokens of the statements that stand behind semicolons. -/
def statementsBehind (rest : List (Option FilterChain)) : List Token :=
  rest.flatMap fun s => mark ";" :: statementTokens s

lemma statementsBehind_cons (s : Option FilterChain) (rest : List (Option FilterChain)) :
    statementsBehind (s :: rest) = mark ";" :: (statementTokens s ++ statementsBehind rest) := rfl

lemma closes_statementsBehind (rest : List (Option FilterChain)) :
    Closes 10 (statementsBehind rest) := by
  cases rest with
  | nil => exact .nil
  | cons s rest => exact .cons (by decide)

lemma not_opens_statementsBehind (rest : List (Option FilterChain)) :
    ¬ Opens (statementsBehind rest) := by
  cases rest with
  | nil => exact id
  | cons s rest =>
    intro h
    exact h.ne_cons (by decide) _ (statementsBehind_cons s rest)

/-- All the statements that are there stand for something. -/
def Denote (statements : List (Option FilterChain)) : Prop :=
  ∀ c, some c ∈ statements → ∃ e, c.denote? = some e

lemma denote_of_mapM {statements : List (Option FilterChain)} {body : List Expr}
    (h : (statements.filterMap id).mapM FilterChain.denote? = some body) : Denote statements := by
  induction statements generalizing body with
  | nil => exact fun c hc => nomatch hc
  | cons s statements ih =>
    cases s with
    | none =>
      intro c hc
      exact ih h c (by simpa using hc)
    | some c =>
      change (c :: statements.filterMap id).mapM FilterChain.denote? = _ at h
      rw [List.mapM_cons] at h
      obtain ⟨e, he, h⟩ := Option.bind_eq_some_iff.1 h
      obtain ⟨es, hes, -⟩ := Option.bind_eq_some_iff.1 h
      intro c' hc'
      rcases List.mem_cons.1 hc' with heq | hmem
      · cases heq
        exact ⟨e, he⟩
      · exact ih hes c' hmem

lemma eq_of_statementTokens {s s' : Option FilterChain} {rest rest' : List (Option FilterChain)}
    (hd : Denote (s :: rest)) (hd' : Denote (s' :: rest'))
    (h : statementTokens s ++ statementsBehind rest =
      statementTokens s' ++ statementsBehind rest') :
    s = s' ∧ statementsBehind rest = statementsBehind rest' := by
  match s, s' with
  | none, none => exact ⟨rfl, h⟩
  | none, some c =>
    have hopens : Opens (statementTokens none ++ statementsBehind rest) := by
      rw [h]
      exact c.opens.append _
    exact (not_opens_statementsBehind rest hopens).elim
  | some c, none =>
    have hopens : Opens (statementTokens none ++ statementsBehind rest') := by
      rw [← h]
      exact c.opens.append _
    exact (not_opens_statementsBehind rest' hopens).elim
  | some c, some c' =>
    obtain ⟨e, he⟩ := hd c (.head _)
    obtain ⟨e', he'⟩ := hd' c' (.head _)
    obtain ⟨rfl, hrest⟩ := FilterChain.eq_of_tokens he he' (closes_statementsBehind rest)
      (closes_statementsBehind rest') h
    exact ⟨rfl, hrest⟩

lemma eq_of_statementsBehind {rest rest' : List (Option FilterChain)} (hd : Denote rest)
    (hd' : Denote rest') (h : statementsBehind rest = statementsBehind rest') : rest = rest' := by
  induction rest generalizing rest' with
  | nil =>
    cases rest' with
    | nil => rfl
    | cons s' rest' => cases h
  | cons s rest ih =>
    cases rest' with
    | nil => cases h
    | cons s' rest' =>
      rw [statementsBehind_cons, statementsBehind_cons] at h
      obtain ⟨rfl, hrest⟩ := eq_of_statementTokens hd hd' (List.cons.inj h).2
      rw [ih (fun c hc => hd c (.tail _ hc)) (fun c hc => hd' c (.tail _ hc)) hrest]

/-- A list of tokens has at most one derivation that stands for something. -/
theorem Program.eq_of_tokens {d d' : Program} {body body' : List Expr} (hd : d.denote? = some body)
    (hd' : d'.denote? = some body') (h : d.tokens = d'.tokens) : d = d' := by
  have hall := denote_of_mapM hd
  have hall' := denote_of_mapM hd'
  obtain ⟨hfirst, hrest⟩ := eq_of_statementTokens hall hall' h
  have hrest := eq_of_statementsBehind (fun c hc => hall c (.tail _ hc))
    (fun c hc => hall' c (.tail _ hc)) hrest
  cases d
  cases d'
  simp_all

end DataBinding.Grammar
