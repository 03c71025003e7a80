import DataBinding.Proofs.Parsing
import DataBinding.Proofs.Unambiguity

/-!
# The parser accepts its grammar

Whatever has a derivation is read: where the tokens of a derivation stand before tokens that do not
go on with the phrase, the parser takes just those of the derivation and returns the tree that it
stands for.  With `Phrase.reads_statements` and `Grammar.Program.eq_of_tokens` the parser accepts
what its grammar derives, reads it in the one way there is, and says of anything else that it is no
program.
-/

namespace DataBinding.Phrase

open Grammar

variable {α β : Type} {ts r : List Token}

/-- The reading succeeds, with what `read` says up to the proof about the tokens left. -/
def Accepts {p : Prop} (x : Except Error α) (read : p → α) : Prop := ∃ h, x = .ok (read h)

lemma Accepts.bind {p q : Prop} {read : p → α} {read' : q → β} {x : Except Error α}
    {f : α → Except Error β} (hx : Accepts x read) (hf : ∀ h, Accepts (f (read h)) read') :
    Accepts (x >>= f) read' := by
  obtain ⟨h, rfl⟩ := hx
  exact hf h

/-! ## Single tokens -/

lemma accept?_mark (text : String) (r : List Token) :
    accept? text (mark text :: r) = some ⟨r, Nat.lt_succ_self _⟩ := by
  simp [accept?, Token.isOperator]

lemma accept?_eq_none_of_ne {text : String} (h : ∀ after, ts ≠ mark text :: after) :
    accept? text ts = none := by
  cases haccept : accept? text ts with
  | none => rfl
  | some after => exact absurd (eq_of_accept? haccept) (h after.1)

lemma accept?_eq_none {n : ℕ} {text : String} (h : Closes n ts) (htext : rank (mark text) ≤ n) :
    accept? text ts = none := by
  refine accept?_eq_none_of_ne fun after hts => ?_
  subst hts
  exact absurd h.lt_rank (Nat.not_lt.2 htext)

lemma accepts_expect (text : String) (r : List Token) :
    Accepts (expect text (mark text :: r)) fun h => ⟨r, h⟩ := by
  rw [expect, accept?_mark]
  exact ⟨_, rfl⟩

lemma accepts_name (s : String) (r : List Token) :
    Accepts (name (ident s :: r)) fun h => ⟨s, r, h⟩ :=
  ⟨_, rfl⟩

lemma accepts_propertyKey (k : Key) (r : List Token) :
    Accepts (propertyKey (k.token :: r)) fun h => ⟨k.denote, r, h⟩ := by
  match k with
  | .name s => exact ⟨_, rfl⟩
  | .constant (.number spelling x) => exact ⟨_, rfl⟩
  | .constant (.string spelling s) => exact ⟨_, rfl⟩

lemma acceptOf?_joint {n : ℕ} (op : Joint n) (r : List Token) :
    acceptOf? (operatorLevel n) (mark op.text :: r) =
      some (op.denote, ⟨r, Nat.lt_succ_self _⟩) := by
  cases op <;> rfl

lemma acceptOf?_eq_none {n : ℕ} (h : Closes n ts) : acceptOf? (operatorLevel n) ts = none := by
  cases haccept : acceptOf? (operatorLevel n) ts with
  | none => rfl
  | some read =>
    obtain ⟨join, after⟩ := read
    obtain ⟨text, hlookup, hts⟩ := eq_of_acceptOf? haccept
    obtain ⟨op, rfl, -⟩ := exists_joint_of_lookup hlookup
    rw [hts] at h
    exact absurd h.lt_rank (by simp)

lemma acceptOf?_sign (op : Sign) (r : List Token) :
    acceptOf? unaryOperators (mark op.text :: r) =
      some (op.denote, ⟨r, Nat.lt_succ_self _⟩) := by
  cases op <;> rfl

lemma acceptOf?_atom (start : Atom) (r : List Token) :
    acceptOf? unaryOperators (start.tokens ++ r) = none := by
  cases haccept : acceptOf? unaryOperators (start.tokens ++ r) with
  | none => rfl
  | some read =>
    obtain ⟨op, after⟩ := read
    obtain ⟨text, hlookup, hts⟩ := eq_of_acceptOf? haccept
    obtain ⟨sign, rfl, -⟩ := exists_sign_of_lookup hlookup
    exact absurd hts.symm (sign.ne_atom start after.1 r)

/-! ## Phrases -/

lemma eq_none_of_accept? {d : Assignments} {r : List Token}
    (h : accept? "," (d.precededBy "," ++ r) = none) : d = .none := by
  cases d with
  | none => rfl
  | more first others =>
    rw [Assignments.precededBy, List.cons_append, accept?_mark] at h
    cases h

lemma eq_none_of_accept?_preceded {d : Properties} {r : List Token}
    (h : accept? "," (d.preceded ++ r) = none) : d = .none := by
  cases d with
  | none => rfl
  | more key value others =>
    rw [Properties.preceded, List.cons_append, accept?_mark] at h
    cases h

/-- What is between brackets is read as what stands behind commas is. -/
lemma accepts_items {d : Assignments} {close : String} {es : List Expr} {r : List Token}
    (hends : close ∈ ends) (hd : d.denote? = some es)
    (hlist : ∀ ts, d.precededBy "," ++ mark close :: r = mark "," :: ts →
      Accepts (itemList ts) fun h => ⟨es, mark close :: r, h⟩) :
    Accepts (items close (d.between ++ mark close :: r)) fun h => ⟨es, mark close :: r, h⟩ := by
  cases d with
  | none =>
    cases hd
    change Accepts (items close (mark close :: r)) _
    rw [items, accept?_mark]
    exact ⟨_, rfl⟩
  | more first others =>
    have hclose : accept? close ((Assignments.more first others).between ++ mark close :: r) =
        none :=
      accept?_eq_none_of_ne (((first.opens.append _).append _).ne_cons hends)
    rw [items, hclose]
    refine (hlist _ rfl).bind fun _ => ?_
    exact ⟨_, rfl⟩

lemma accepts_properties {d : Properties} {ps : List (PropertyKey × Expr)} {r : List Token}
    (hd : d.denote? = some ps)
    (hlist : ∀ ts, d.preceded ++ mark "\x7d" :: r = mark "," :: ts →
      Accepts (propertyList ts) fun h => ⟨ps, mark "\x7d" :: r, h⟩) :
    Accepts (properties (d.between ++ mark "\x7d" :: r)) fun h => ⟨ps, mark "\x7d" :: r, h⟩ := by
  cases d with
  | none =>
    cases hd
    change Accepts (properties (mark "\x7d" :: r)) _
    rw [properties, accept?_mark]
    exact ⟨_, rfl⟩
  | more key value others =>
    have hclose : accept? "\x7d"
        ((Properties.more key value others).between ++ mark "\x7d" :: r) = none :=
      accept?_eq_none_of_ne fun after h => key.token_ne_mark _ (List.cons.inj h).1
    rw [properties, hclose]
    refine (hlist _ rfl).bind fun _ => ?_
    exact ⟨_, rfl⟩

mutual

theorem accepts_filterChain {ts r : List Token} (d : FilterChain) {e : Expr}
    (hd : d.denote? = some e) (hts : d.tokens ++ r = ts) (hr : Closes 10 r) :
    Accepts (filterChain ts) fun h => ⟨e, r, h⟩ := by
  match d with
  | .of input ps =>
    obtain ⟨i, hi, hps⟩ := Option.bind_eq_some_iff.1 hd
    rw [FilterChain.tokens, List.append_assoc] at hts
    rw [filterChain]
    refine (accepts_assignment input hi hts ((ps.closes hr).mono (by decide))).bind fun _ => ?_
    refine (accepts_pipes ps hps rfl hr).bind fun _ => ?_
    exact ⟨_, rfl⟩
termination_by structural d

theorem accepts_pipes {ts r : List Token} (d : Pipes) {i e : Expr} (hd : d.denote? i = some e)
    (hts : d.tokens ++ r = ts) (hr : Closes 10 r) :
    Accepts (pipes i ts) fun h => ⟨e, r, h⟩ := by
  rw [pipes]
  match d with
  | .none =>
    cases hd
    obtain rfl : r = ts := hts
    rw [accept?_eq_none hr (by decide)]
    exact ⟨_, rfl⟩
  | .pipe name args ps =>
    obtain ⟨as, has, hps⟩ := Option.bind_eq_some_iff.1 hd
    simp only [Pipes.tokens, List.cons_append, List.append_assoc] at hts
    subst hts
    rw [accept?_mark]
    refine (accepts_name _ _).bind fun _ => ?_
    refine (accepts_filterArgs args has rfl (ps.closes hr)).bind fun _ => ?_
    refine (accepts_pipes ps hps rfl hr).bind fun _ => ?_
    exact ⟨_, rfl⟩
termination_by structural d

theorem accepts_filterArgs {ts r : List Token} (d : Assignments) {es : List Expr}
    (hd : d.denote? = some es) (hts : d.precededBy ":" ++ r = ts) (hr : Closes 9 r) :
    Accepts (filterArgs ts) fun h => ⟨es, r, h⟩ := by
  rw [filterArgs]
  match d with
  | .none =>
    cases hd
    obtain rfl : r = ts := hts
    rw [accept?_eq_none hr (by decide)]
    exact ⟨_, rfl⟩
  | .more first others =>
    obtain ⟨e, he, hd⟩ := Option.bind_eq_some_iff.1 hd
    obtain ⟨es, hes, hd⟩ := Option.bind_eq_some_iff.1 hd
    cases hd
    simp only [Assignments.precededBy, List.cons_append, List.append_assoc] at hts
    subst hts
    rw [accept?_mark]
    refine (accepts_assignment first he rfl
      (others.closes (by decide) (hr.mono (by decide)))).bind fun _ => ?_
    refine (accepts_filterArgs others hes rfl hr).bind fun _ => ?_
    exact ⟨_, rfl⟩
termination_by structural d

theorem accepts_assignment {ts r : List Token} (d : Assignment) {e : Expr} (hd : d.denote? = some e)
    (hts : d.tokens ++ r = ts) (hr : Closes 8 r) :
    Accepts (assignment ts) fun h => ⟨e, r, h⟩ := by
  rw [assignment]
  match d with
  | .value t =>
    refine (accepts_ternary t hd hts (hr.mono t.level_le)).bind fun _ => ?_
    dsimp only
    rw [accept?_eq_none hr (by decide)]
    exact ⟨_, rfl⟩
  | .assign target value =>
    obtain ⟨p, v, hp, hv, rfl⟩ := Assignment.denote?_assign.1 hd
    rw [Assignment.tokens, List.append_assoc, List.cons_append] at hts
    refine (accepts_ternary target hp hts (closes_of_denote hp)).bind fun _ => ?_
    dsimp only
    rw [accept?_mark]
    refine (accepts_assignment value hv rfl hr).bind fun _ => ?_
    exact ⟨_, rfl⟩
termination_by structural d

theorem accepts_ternary {ts r : List Token} (d : Ternary) {e : Expr} (hd : d.denote? = some e)
    (hts : d.tokens ++ r = ts) (hr : Closes d.level r) :
    Accepts (ternary ts) fun h => ⟨e, r, h⟩ := by
  rw [ternary]
  match d with
  | .operand b =>
    refine (accepts_binary b hd hts (hr.mono (Nat.le_succ 6))).bind fun _ => ?_
    dsimp only
    have hr : Closes 7 r := hr
    rw [accept?_eq_none hr (by decide)]
    exact ⟨_, rfl⟩
  | .choice test consequent alternate =>
    obtain ⟨t, ht, hd⟩ := Option.bind_eq_some_iff.1 hd
    obtain ⟨c, hc, hd⟩ := Option.bind_eq_some_iff.1 hd
    obtain ⟨a, ha, hd⟩ := Option.bind_eq_some_iff.1 hd
    cases hd
    simp only [Ternary.tokens, List.append_assoc, List.cons_append] at hts
    refine (accepts_binary test ht hts (.cons (by decide))).bind fun _ => ?_
    dsimp only
    rw [accept?_mark]
    refine (accepts_assignment consequent hc rfl (.cons (by decide))).bind fun _ => ?_
    refine (accepts_expect _ _).bind fun _ => ?_
    refine (accepts_assignment alternate ha rfl hr).bind fun _ => ?_
    exact ⟨_, rfl⟩
termination_by structural d

theorem accepts_binary {ts r : List Token} {n : ℕ} (d : Grammar.Binary n) {e : Expr}
    (hd : d.denote? = some e) (hts : d.tokens ++ r = ts) (hr : Closes n r) :
    Accepts (binary n ts) fun h => ⟨e, r, h⟩ := by
  match d with
  | .unary u =>
    rw [binary]
    exact accepts_unary u hd hts hr
  | .joined first others =>
    obtain ⟨f, hf, hothers⟩ := Option.bind_eq_some_iff.1 hd
    rw [Binary.tokens, List.append_assoc] at hts
    rw [binary]
    refine (accepts_binary first hf hts (others.closes hr)).bind fun _ => ?_
    refine (accepts_operands others hothers rfl hr).bind fun _ => ?_
    exact ⟨_, rfl⟩
termination_by structural d

theorem accepts_operands {ts r : List Token} {n : ℕ} (d : Operands n) {i e : Expr}
    (hd : d.denote? i = some e) (hts : d.tokens ++ r = ts) (hr : Closes (n + 1) r) :
    Accepts (operands n i ts) fun h => ⟨e, r, h⟩ := by
  rw [operands]
  match d with
  | .none =>
    cases hd
    obtain rfl : r = ts := hts
    rw [acceptOf?_eq_none hr]
    exact ⟨_, rfl⟩
  | .more op right others =>
    obtain ⟨b, hb, hothers⟩ := Option.bind_eq_some_iff.1 hd
    simp only [Operands.tokens, List.cons_append, List.append_assoc] at hts
    subst hts
    rw [acceptOf?_joint]
    refine (accepts_binary right hb rfl (others.closes hr)).bind fun _ => ?_
    refine (accepts_operands others hothers rfl hr).bind fun _ => ?_
    exact ⟨_, rfl⟩
termination_by structural d

theorem accepts_unary {ts r : List Token} (d : Unary) {e : Expr} (hd : d.denote? = some e)
    (hts : d.tokens ++ r = ts) (hr : Closes 0 r) :
    Accepts (unary ts) fun h => ⟨e, r, h⟩ := by
  rw [unary]
  match d with
  | .sign op operand =>
    obtain ⟨o, ho, hd⟩ := Option.bind_eq_some_iff.1 hd
    cases hd
    obtain rfl : mark op.text :: (operand.tokens ++ r) = ts := hts
    rw [acceptOf?_sign]
    refine (accepts_unary operand ho rfl hr).bind fun _ => ?_
    exact ⟨_, rfl⟩
  | .primary (.of start c) =>
    obtain ⟨a, ha, hc⟩ := Option.bind_eq_some_iff.1 hd
    rw [Unary.tokens, Primary.tokens, List.append_assoc] at hts
    subst hts
    rw [acceptOf?_atom, primary]
    refine (accepts_atom start ha rfl).bind fun _ => ?_
    refine (accepts_chain c hc rfl hr).bind fun _ => ?_
    exact ⟨_, rfl⟩
termination_by structural d

theorem accepts_chain {ts r : List Token} (d : Chain) {i e : Expr} (hd : d.denote? i = some e)
    (hts : d.tokens ++ r = ts) (hr : Closes 0 r) :
    Accepts (chain i ts) fun h => ⟨e, r, h⟩ := by
  rw [chain]
  match d with
  | .none =>
    cases hd
    obtain rfl : r = ts := hts
    rw [accept?_eq_none hr (by decide), accept?_eq_none hr (by decide),
      accept?_eq_none hr (by decide)]
    exact ⟨_, rfl⟩
  | .member key others =>
    rw [Chain.denote?] at hd
    obtain rfl : mark "." :: ident key :: (others.tokens ++ r) = ts := hts
    rw [accept?_mark]
    refine (accepts_name _ _).bind fun _ => ?_
    refine (accepts_chain others hd rfl hr).bind fun _ => ?_
    exact ⟨_, rfl⟩
  | .element key others =>
    obtain ⟨k, hk, hothers⟩ := Option.bind_eq_some_iff.1 hd
    simp only [Chain.tokens, List.cons_append, List.append_assoc] at hts
    subst hts
    rw [accept?_eq_none_of_ne (by simp), accept?_mark]
    refine (accepts_filterChain key hk rfl (.cons (by decide))).bind fun _ => ?_
    refine (accepts_expect _ _).bind fun _ => ?_
    refine (accepts_chain others hothers rfl hr).bind fun _ => ?_
    exact ⟨_, rfl⟩
  | .call args others =>
    obtain ⟨as, has, hothers⟩ := Option.bind_eq_some_iff.1 hd
    simp only [Chain.tokens, List.cons_append, List.append_assoc] at hts
    subst hts
    rw [accept?_eq_none_of_ne (by simp), accept?_eq_none_of_ne (by simp), accept?_mark]
    refine (accepts_items (by decide) has fun after hafter =>
      accepts_itemList args has hafter (.cons (by decide))).bind fun _ => ?_
    refine (accepts_expect _ _).bind fun _ => ?_
    refine (accepts_chain others hothers rfl hr).bind fun _ => ?_
    exact ⟨_, rfl⟩
termination_by structural d

theorem accepts_atom {ts r : List Token} (d : Atom) {e : Expr} (hd : d.denote? = some e)
    (hts : d.tokens ++ r = ts) : Accepts (atom ts) fun h => ⟨e, r, h⟩ := by
  rw [atom.eq_def]
  match d with
  | .brackets f =>
    simp only [Atom.tokens, List.cons_append, List.append_assoc, List.nil_append] at hts
    subst hts
    rw [accept?_mark]
    refine (accepts_filterChain f hd rfl (.cons (by decide))).bind fun _ => ?_
    refine (accepts_expect _ _).bind fun _ => ?_
    exact ⟨_, rfl⟩
  | .array items =>
    obtain ⟨es, hes, hd⟩ := Option.bind_eq_some_iff.1 hd
    cases hd
    simp only [Atom.tokens, List.cons_append, List.append_assoc, List.nil_append] at hts
    subst hts
    rw [accept?_eq_none_of_ne (by simp), accept?_mark]
    refine (accepts_items (by decide) hes fun after hafter =>
      accepts_itemList items hes hafter (.cons (by decide))).bind fun _ => ?_
    refine (accepts_expect _ _).bind fun _ => ?_
    exact ⟨_, rfl⟩
  | .object properties =>
    obtain ⟨ps, hps, hd⟩ := Option.bind_eq_some_iff.1 hd
    cases hd
    simp only [Atom.tokens, List.cons_append, List.append_assoc, List.nil_append] at hts
    subst hts
    rw [accept?_eq_none_of_ne (by simp), accept?_eq_none_of_ne (by simp), accept?_mark]
    refine (accepts_properties hps fun after hafter =>
      accepts_propertyList properties hps hafter (.cons (by decide))).bind fun _ => ?_
    refine (accepts_expect _ _).bind fun _ => ?_
    exact ⟨_, rfl⟩
  | .keyword k =>
    cases hd
    obtain rfl : ident k.text :: r = ts := hts
    rw [accept?_eq_none_of_ne (by simp), accept?_eq_none_of_ne (by simp),
      accept?_eq_none_of_ne (by simp)]
    cases k <;> exact ⟨_, rfl⟩
  | .name s hs =>
    cases hd
    obtain rfl : ident s :: r = ts := hts
    rw [accept?_eq_none_of_ne (by simp), accept?_eq_none_of_ne (by simp),
      accept?_eq_none_of_ne (by simp)]
    have hkeyword : keyword? s = none := by
      obtain ⟨k, hk, -⟩ | ⟨-, hkeyword⟩ := keyword?_cases s
      · exact absurd hk (hs k)
      · exact hkeyword
    refine ⟨Nat.lt_succ_self _, ?_⟩
    simp [Token.isIdentifier, hkeyword]
    rfl
  | .constant c =>
    cases hd
    obtain rfl : c.token :: r = ts := hts
    rw [accept?_eq_none_of_ne (by simp), accept?_eq_none_of_ne (by simp),
      accept?_eq_none_of_ne (by simp)]
    cases c <;> exact ⟨_, rfl⟩
termination_by structural d

theorem accepts_itemList {ts r : List Token} (d : Assignments) {es : List Expr}
    (hd : d.denote? = some es) (hts : d.precededBy "," ++ r = mark "," :: ts) (hr : Closes 11 r) :
    Accepts (itemList ts) fun h => ⟨es, r, h⟩ := by
  match d with
  | .none =>
    obtain rfl : r = mark "," :: ts := hts
    exact absurd hr.lt_rank (by decide)
  | .more first others =>
    obtain ⟨e, he, hd⟩ := Option.bind_eq_some_iff.1 hd
    obtain ⟨es, hes, hd⟩ := Option.bind_eq_some_iff.1 hd
    cases hd
    simp only [Assignments.precededBy, List.cons_append, List.append_assoc, List.cons.injEq,
      true_and] at hts
    rw [itemList]
    refine (accepts_assignment first he hts
      (others.closes (by decide) (hr.mono (by decide)))).bind fun _ => ?_
    dsimp only
    cases haccept : accept? "," (others.precededBy "," ++ r) with
    | none =>
      obtain rfl := eq_none_of_accept? haccept
      cases hes
      exact ⟨_, rfl⟩
    | some after =>
      refine (accepts_itemList others hes (eq_of_accept? haccept) hr).bind fun _ => ?_
      exact ⟨_, rfl⟩
termination_by structural d

theorem accepts_propertyList {ts r : List Token} (d : Properties)
    {ps : List (PropertyKey × Expr)} (hd : d.denote? = some ps)
    (hts : d.preceded ++ r = mark "," :: ts) (hr : Closes 11 r) :
    Accepts (propertyList ts) fun h => ⟨ps, r, h⟩ := by
  match d with
  | .none =>
    obtain rfl : r = mark "," :: ts := hts
    exact absurd hr.lt_rank (by decide)
  | .more key value others =>
    obtain ⟨v, hv, hd⟩ := Option.bind_eq_some_iff.1 hd
    obtain ⟨ps, hps, hd⟩ := Option.bind_eq_some_iff.1 hd
    cases hd
    simp only [Properties.preceded, List.cons_append, List.append_assoc, List.cons.injEq,
      true_and] at hts
    subst hts
    rw [propertyList]
    refine (accepts_propertyKey _ _).bind fun _ => ?_
    refine (accepts_expect _ _).bind fun _ => ?_
    refine (accepts_assignment value hv rfl (others.closes (hr.mono (by decide)))).bind fun _ => ?_
    dsimp only
    cases haccept : accept? "," (others.preceded ++ r) with
    | none =>
      obtain rfl := eq_none_of_accept?_preceded haccept
      cases hps
      exact ⟨_, rfl⟩
    | some after =>
      refine (accepts_propertyList others hps (eq_of_accept? haccept) hr).bind fun _ => ?_
      exact ⟨_, rfl⟩
termination_by structural d

end

/-! ## Programs -/

lemma statements_nil : statements (statementsBehind []) = .ok [] := by
  change statements [] = .ok []
  rw [statements]
  rfl

lemma statements_cons (s : Option FilterChain) (rest : List (Option FilterChain)) :
    statements (statementsBehind (s :: rest)) =
      statements (statementTokens s ++ statementsBehind rest) := by
  rw [statementsBehind_cons, statements]
  rfl

lemma isOperator_semicolon {t : Token} {ts : List Token} (h : Opens (t :: ts)) :
    t.isOperator ";" = false := by
  refine Bool.eq_false_iff.2 fun ht => ?_
  exact h ";" (by decide) (eq_mark_of_isOperator ht)

/-- A program that begins with a statement is the statement and what is behind it. -/
lemma statements_filterChain {c : FilterChain} {e : Expr} (he : c.denote? = some e)
    (rest : List (Option FilterChain)) :
    statements (c.tokens ++ statementsBehind rest) =
      (e :: ·) <$> statements (statementsBehind rest) := by
  obtain ⟨h, hread⟩ := accepts_filterChain c he rfl (closes_statementsBehind rest)
  have hopens := c.opens.append (statementsBehind rest)
  generalize hts : c.tokens ++ statementsBehind rest = ts at h hread hopens
  cases ts with
  | nil => exact hopens.elim
  | cons t ts =>
    rw [statements, if_neg (by simp [isOperator_semicolon hopens]), hread]
    cases rest with
    | nil =>
      rw [statements_nil]
      rfl
    | cons s rest =>
      rw [statements_cons]
      change (statements (statementTokens s ++ statementsBehind rest) >>=
        fun es => pure (e :: es)) = _
      rw [map_eq_pure_bind]

lemma statements_eq_of_denote {first : Option FilterChain} {rest : List (Option FilterChain)}
    {body : List Expr}
    (hbehind : ∀ es, (rest.filterMap id).mapM FilterChain.denote? = some es →
      statements (statementsBehind rest) = .ok es)
    (h : ((first :: rest).filterMap id).mapM FilterChain.denote? = some body) :
    statements (statementTokens first ++ statementsBehind rest) = .ok body := by
  cases first with
  | none => exact hbehind body h
  | some c =>
    change (c :: rest.filterMap id).mapM FilterChain.denote? = _ at h
    rw [List.mapM_cons] at h
    obtain ⟨e, he, h⟩ := Option.bind_eq_some_iff.1 h
    obtain ⟨es, hes, h⟩ := Option.bind_eq_some_iff.1 h
    cases h
    change statements (c.tokens ++ statementsBehind rest) = _
    rw [statements_filterChain he, hbehind es hes]
    rfl

lemma statements_behind {rest : List (Option FilterChain)} {es : List Expr}
    (h : (rest.filterMap id).mapM FilterChain.denote? = some es) :
    statements (statementsBehind rest) = .ok es := by
  induction rest generalizing es with
  | nil =>
    cases h
    exact statements_nil
  | cons s rest ih =>
    rw [statements_cons]
    exact statements_eq_of_denote (fun _ => ih) h

/-- The parser accepts what its grammar derives, with the only tree that is derived there, and
rejects anything else with a fault of the grammar. -/
theorem statements_decides_grammar (ts : List Token) :
    (∀ body, statements ts = .ok body ↔ ∃ d : Program, d.Derives ts body) ∧
      (∀ (d d' : Program) (body body' : List Expr), d.Derives ts body → d'.Derives ts body' →
        d = d') ∧
      ((¬ ∃ (d : Program) (body : List Expr), d.Derives ts body) →
        ∃ fault, statements ts = .error (.grammar fault)) := by
  have hreads := reads_statements ts
  have haccepts (d : Program) (body : List Expr) (h : d.Derives ts body) :
      statements ts = .ok body := by
    rw [← h.tokens]
    exact statements_eq_of_denote (fun _ => statements_behind) h.denote
  refine ⟨fun body => ⟨fun hbody => ?_, fun ⟨d, hd⟩ => haccepts d body hd⟩, ?_, ?_⟩
  · rw [hbody] at hreads
    exact hreads
  · intro d d' body body' hd hd'
    exact Program.eq_of_tokens hd.denote hd'.denote (hd.tokens.trans hd'.tokens.symm)
  · intro hnone
    cases hbody : statements ts with
    | ok body =>
      rw [hbody] at hreads
      obtain ⟨d, hd⟩ := hreads
      exact absurd ⟨d, body, hd⟩ hnone
    | error e =>
      rw [hbody] at hreads
      obtain ⟨fault, rfl⟩ := hreads
      exact ⟨fault, rfl⟩

end DataBinding.Phrase
