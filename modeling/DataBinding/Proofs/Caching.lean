import DataBinding.Expression
import Mathlib

/-!
# What the cache of the compiler gives

A source is trimmed (`Text.TrimsTo`), and then it spells the text of an expression, which is behind
the one-time marks if there are any (`Compiler.Spells`).

A compiler begins with some filters and an empty cache, and is used: sources are parsed, filters are
registered, the cache is cleared.  The cache never shows but in what is shared.  A source with the
trimmed text of one that was parsed before gives what the first successful parse of such a source
since the last clear gave, with the filters of that time; any other source gives what compiling the
text that it spells gives now (`Compiler.parse_after`).
-/

namespace DataBinding

namespace Compiler

/-! ## Uses of a compiler -/

/-- A compiler is given a source, is made to forget, or is given a filter. -/
inductive Use
  | parse (source : String)
  | clear
  | register (name : String) (filter : Filter)

/-- The compiler after it was used. -/
def use (c : Compiler) : Use → Compiler
  | .parse source => (c.parse source).2
  | .clear => c.clear
  | .register name filter => c.register name filter

/-- The filters that are registered after a use. -/
def Use.registry (registry : Record Filter) : Use → Record Filter
  | .register name filter => registry.set name filter
  | .parse _ | .clear => registry

/-- A compiler with these filters that has compiled nothing. -/
def ofRegistry (registry : Record Filter) : Compiler := ⟨registry, .empty⟩

/-- A new compiler after it was used in this way. -/
def after (registry : Record Filter) (uses : List Use) : Compiler :=
  uses.foldl use (ofRegistry registry)

/-- The filters that are registered after these uses, whatever was parsed. -/
def registered (registry : Record Filter) (uses : List Use) : Record Filter :=
  uses.foldl Use.registry registry

/-! ## Spellings -/

/-- The text of an expression is spelled by itself, unless it begins with one-time marks, and as a
one-time expression it is spelled behind the marks and any blanks. -/
inductive Spells : String → String → Bool → Prop
  | plain {text : String} (hmarks : ¬ [':', ':'] <+: text.toList) : Spells text text false
  | oneTime {text : String} {blanks : List Char} (hblanks : ∀ c ∈ blanks, Text.isBlank c = true)
    (htext : ∀ c ∈ text.toList.head?, Text.isBlank c = false) :
    Spells (String.ofList ([':', ':'] ++ blanks ++ text.toList)) text true

lemma withoutMarks_of_unmarked {text : String} (h : ¬ [':', ':'] <+: text.toList) :
    withoutMarks text = (text, false) :=
  if_neg (by rwa [List.isPrefixOf_iff_prefix])

lemma withoutMarks_of_marked {text : String} {rest : List Char}
    (h : [':', ':'] ++ rest = text.toList) :
    withoutMarks text = (String.ofList (Text.trimmedStart rest), true) := by
  have hmarks : [':', ':'].isPrefixOf text.toList = true :=
    List.isPrefixOf_iff_prefix.2 ⟨rest, h⟩
  have hrest : text.toList.drop oneTimeMarks.length = rest := by
    rw [← h]
    rfl
  refine (if_pos hmarks).trans ?_
  rw [hrest, Text.trimStart, String.toList_ofList]

/-- The compiler finds out which text is spelled and whether there were marks. -/
lemma spells_iff {trimmed text : String} {oneTime : Bool} :
    Spells trimmed text oneTime ↔ withoutMarks trimmed = (text, oneTime) := by
  constructor
  · rintro (hmarks | @⟨_, blanks, hblanks, htext⟩)
    · exact withoutMarks_of_unmarked hmarks
    · have hspelled : [':', ':'] ++ (blanks ++ text.toList) =
          (String.ofList ([':', ':'] ++ blanks ++ text.toList)).toList := by simp
      rw [withoutMarks_of_marked hspelled, Text.trimmedStart_append hblanks htext,
        String.ofList_toList]
  · intro h
    by_cases hmarks : [':', ':'] <+: trimmed.toList
    · obtain ⟨rest, hrest⟩ := hmarks
      obtain ⟨blanks, hblanks, hblank⟩ := Text.exists_eq_trimmedStart rest
      obtain ⟨rfl, rfl⟩ := Prod.mk.inj ((withoutMarks_of_marked hrest).symm.trans h)
      have hspelled : trimmed = String.ofList ([':', ':'] ++ blanks ++
          (String.ofList (Text.trimmedStart rest)).toList) := by
        rw [String.toList_ofList, List.append_assoc, ← hblanks, hrest, String.ofList_toList]
      have htext : ∀ c ∈ (String.ofList (Text.trimmedStart rest)).toList.head?,
          Text.isBlank c = false := by
        rw [String.toList_ofList]
        exact Text.isBlank_of_mem_head?_trimmedStart rest
      rw [hspelled]
      exact .oneTime hblank htext
    · obtain ⟨rfl, rfl⟩ := Prod.mk.inj ((withoutMarks_of_unmarked hmarks).symm.trans h)
      exact .plain hmarks

/-- Every source is trimmed, and then it spells some text. -/
lemma exists_spelled (source : String) :
    ∃ trimmed text oneTime, Text.TrimsTo source trimmed ∧ Spells trimmed text oneTime :=
  ⟨_, _, _, Text.trim_eq_iff.1 rfl, spells_iff.2 rfl⟩

/-- A source is cached under its trimmed text. -/
lemma key_eq_iff {source k : String} : key source = k ↔ Text.TrimsTo source k := Text.trim_eq_iff

/-- What compiling a source gives when nothing is cached: its text is without the blanks around it,
and without the one-time marks and the blanks behind them. -/
def compileNow (registry : Record Filter) (source : String) : Except Error Expression :=
  Expression.compile registry (withoutMarks (key source)).1 (withoutMarks (key source)).2

lemma compileNow_of_spells {registry : Record Filter} {source trimmed text : String}
    {oneTime : Bool} (htrim : Text.TrimsTo source trimmed) (hspells : Spells trimmed text oneTime) :
    compileNow registry source = Expression.compile registry text oneTime := by
  rw [compileNow, key_eq_iff.2 htrim, spells_iff.1 hspells]

lemma after_append (registry : Record Filter) (uses : List Use) (u : Use) :
    after registry (uses ++ [u]) = (after registry uses).use u := by
  simp [after]

lemma registered_append (registry : Record Filter) (uses : List Use) (u : Use) :
    registered registry (uses ++ [u]) = u.registry (registered registry uses) := by
  simp [registered]

/-! ## One parse -/

lemma parse_eq_compileNow {c : Compiler} {source : String}
    (h : c.cache.get? (key source) = none) :
    c.parse source = match compileNow c.registry source with
      | .ok e => (.ok e, { c with cache := c.cache.set (key source) e })
      | .error error => (.error error, c) := by
  obtain ⟨text, oneTime, hmarks⟩ : ∃ text oneTime, withoutMarks (key source) = (text, oneTime) :=
    ⟨_, _, rfl⟩
  cases hnow : Expression.compile c.registry text oneTime <;>
    simp only [parse, compileNow, h, hmarks, hnow]

/-- A parse that fails changes nothing. -/
lemma snd_parse_of_error {c : Compiler} {source : String} {error : Error}
    (h : (c.parse source).1 = .error error) : (c.parse source).2 = c := by
  cases hcached : c.cache.get? (key source) with
  | some e => rw [parse_of_cached hcached]
  | none =>
    rw [parse_eq_compileNow hcached] at h ⊢
    cases hnow : compileNow c.registry source with
    | ok e =>
      rw [hnow] at h
      cases h
    | error => rfl

/-- Nothing but the entry of the source is written. -/
lemma get?_cache_parse_of_ne (c : Compiler) {source k : String} (h : key source ≠ k) :
    (c.parse source).2.cache.get? k = c.cache.get? k := by
  cases hcached : c.cache.get? (key source) with
  | some e => rw [parse_of_cached hcached]
  | none =>
    rw [parse_eq_compileNow hcached]
    cases compileNow c.registry source with
    | ok e => exact Record.get?_set_of_ne _ (Ne.symm h) e
    | error => rfl

@[simp]
lemma registry_parse (c : Compiler) (source : String) :
    (c.parse source).2.registry = c.registry := by
  cases hcached : c.cache.get? (key source) with
  | some e => rw [parse_of_cached hcached]
  | none =>
    rw [parse_eq_compileNow hcached]
    cases compileNow c.registry source <;> rfl

lemma registry_use (c : Compiler) (u : Use) : (c.use u).registry = u.registry c.registry := by
  cases u with
  | parse source => exact registry_parse c source
  | clear => rfl
  | register name filter => rfl

lemma registry_after (registry : Record Filter) (uses : List Use) :
    (after registry uses).registry = registered registry uses := by
  induction uses using List.reverseRecOn with
  | nil => rfl
  | append_singleton uses u ih => rw [after_append, registered_append, registry_use, ih]

/-- What is compiled has the text that was compiled, and is one-time as it was marked. -/
lemma source_of_compile {registry : Record Filter} {text : String} {oneTime : Bool}
    {e : Expression} (h : Expression.compile registry text oneTime = .ok e) :
    e.source = text ∧ e.oneTime = oneTime := by
  unfold Expression.compile at h
  cases htokens : Token.ofSource text with
  | error => simp [htokens, bind, Except.bind] at h
  | ok tokens =>
    cases hbody : Phrase.statements tokens with
    | error => simp [htokens, hbody, bind, Except.bind] at h
    | ok body =>
      cases hfilters : Expression.resolve registry (Expr.filterNamesList body).eraseDups with
      | error => simp [htokens, hbody, hfilters, bind, Except.bind] at h
      | ok filters =>
        simp only [htokens, hbody, hfilters, bind, Except.bind, pure, Except.pure,
          Except.ok.injEq] at h
        rw [← h]
        exact ⟨rfl, rfl⟩

/-! ## Histories -/

/-- Since the last clear, no source with this trimmed text was parsed successfully. -/
def Unparsed (registry : Record Filter) (uses : List Use) (k : String) : Prop :=
  ∀ before source since e, uses = before ++ .parse source :: since → .clear ∉ since →
    Text.TrimsTo source k → ((after registry before).parse source).1 ≠ .ok e

/-- Of the sources with this trimmed text, the one parsed between these uses was the first since
the last clear to be parsed successfully. -/
structure FirstParse (registry : Record Filter) (uses : List Use) (k : String) (before : List Use)
    (source : String) (since : List Use) (e : Expression) : Prop where
  split : uses = before ++ .parse source :: since
  kept : .clear ∉ since
  trims : Text.TrimsTo source k
  parsed : ((after registry before).parse source).1 = .ok e
  first : Unparsed registry before k

section

variable {registry : Record Filter} {uses before since : List Use} {k source : String}
  {e : Expression} {u : Use}

/-- One more use cannot undo the first parse, unless it clears the cache. -/
lemma FirstParse.append (h : FirstParse registry uses k before source since e) (hu : u ≠ .clear) :
    FirstParse registry (uses ++ [u]) k before source (since ++ [u]) e where
  split := by simp [h.split]
  kept := by
    have hkept := h.kept
    simp [hkept, Ne.symm hu]
  trims := h.trims
  parsed := h.parsed
  first := h.first

/-- One more use parses no source of the text, if it is not a successful parse of one. -/
lemma Unparsed.append (h : Unparsed registry uses k)
    (hu : ∀ source e, u = .parse source → Text.TrimsTo source k →
      ((after registry uses).parse source).1 ≠ .ok e) : Unparsed registry (uses ++ [u]) k := by
  intro before source since e hsplit hkept hkey
  by_cases hsince : since = []
  · subst hsince
    obtain ⟨rfl, hlast⟩ := List.append_inj' hsplit rfl
    simp only [List.cons.injEq, and_true] at hlast
    exact hu source e hlast hkey
  · obtain ⟨since, last, rfl⟩ := List.eq_nil_or_concat since |>.resolve_left hsince
    rw [List.concat_eq_append, ← List.cons_append, ← List.append_assoc] at hsplit
    obtain ⟨hsplit, -⟩ := List.append_inj' hsplit rfl
    exact h before source since e hsplit (fun hmem => hkept (by simp [hmem])) hkey

/-- After a clear nothing is parsed. -/
lemma unparsed_clear : Unparsed registry (uses ++ [.clear]) k := by
  intro before source since e hsplit hkept
  by_cases hsince : since = []
  · subst hsince
    obtain ⟨-, hlast⟩ := List.append_inj' hsplit rfl
    simp at hlast
  · obtain ⟨since, last, rfl⟩ := List.eq_nil_or_concat since |>.resolve_left hsince
    rw [List.concat_eq_append, ← List.cons_append, ← List.append_assoc] at hsplit
    obtain ⟨-, hlast⟩ := List.append_inj' hsplit rfl
    simp only [List.cons.injEq, and_true] at hlast
    simp [← hlast] at hkept

end

/-- What is cached under a text: the expression of the first parse of a source that is trimmed to it
since the last clear, compiled with the filters of that time; nothing if there was none. -/
def Remembers (registry : Record Filter) (uses : List Use) (k : String) :
    Option Expression → Prop
  | none => Unparsed registry uses k
  | some e => ∃ before source since, FirstParse registry uses k before source since e ∧
      compileNow (registered registry before) source = .ok e

/-- One more use, with what it leaves in the cache. -/
lemma Remembers.step {registry : Record Filter} {uses : List Use} {k : String} (u : Use)
    (h : Remembers registry uses k ((after registry uses).cache.get? k)) :
    Remembers registry (uses ++ [u]) k (((after registry uses).use u).cache.get? k) := by
  -- an entry stays where the use leaves the cache alone and parses no source of the key
  have hkeep (hclear : u ≠ .clear) (hparse : ∀ source, u = .parse source → key source ≠ k) :
      Remembers registry (uses ++ [u]) k ((after registry uses).cache.get? k) := by
    cases hcached : (after registry uses).cache.get? k with
    | none =>
      rw [hcached] at h
      exact Unparsed.append h fun source _ hu htrim =>
        absurd (key_eq_iff.2 htrim) (hparse source hu)
    | some e =>
      rw [hcached] at h
      obtain ⟨before, source, since, hfirst, hnow⟩ := h
      exact ⟨before, source, since ++ [u], hfirst.append hclear, hnow⟩
  cases u with
  | clear => exact unparsed_clear
  | register name filter => exact hkeep (by simp) (by simp)
  | parse source =>
    by_cases hkey : key source = k
    · subst hkey
      cases hcached : (after registry uses).cache.get? (key source) with
      | some e =>
        rw [hcached] at h
        obtain ⟨before, source', since, hfirst, hnow⟩ := h
        have hparse := parse_of_cached hcached
        simp only [use, hparse, hcached]
        exact ⟨before, source', _, hfirst.append (by simp), hnow⟩
      | none =>
        rw [hcached] at h
        have hparse := parse_eq_compileNow hcached
        cases hnow : compileNow (after registry uses).registry source with
        | ok e =>
          rw [hnow] at hparse
          simp only [use, hparse, Record.get?_set_self]
          refine ⟨uses, source, [], ⟨rfl, by simp, key_eq_iff.1 rfl, by rw [hparse], h⟩, ?_⟩
          rw [← registry_after, hnow]
        | error error =>
          rw [hnow] at hparse
          simp only [use, hparse, hcached]
          refine Unparsed.append h fun source' e hu hkey => ?_
          cases hu
          simp [hparse]
    · have hsame := get?_cache_parse_of_ne (after registry uses) hkey
      simp only [use, hsame]
      refine hkeep (by simp) fun source' hu => ?_
      cases hu
      exact hkey

lemma remembers_after (registry : Record Filter) (uses : List Use) (k : String) :
    Remembers registry uses k ((after registry uses).cache.get? k) := by
  induction uses using List.reverseRecOn with
  | nil =>
    intro before source since e hsplit
    simp at hsplit
  | append_singleton uses u ih =>
    rw [after_append]
    exact ih.step u

/-- After any parses, clears and registrations, a source with the trimmed text of one that was
parsed since the last clear gives the expression of the first such parse, which was compiled with
the filters registered at that time, and nothing is compiled; any other source gives what compiling
the text that it spells gives now.  What is given has that text, and is one-time just if it was
spelled behind one-time marks.  A parse that fails changes nothing. -/
theorem parse_after (registry : Record Filter) (uses : List Use) {source trimmed text : String}
    {oneTime : Bool} (htrim : Text.TrimsTo source trimmed) (hspells : Spells trimmed text oneTime) :
    ((∃ e before source' since,
        FirstParse registry uses trimmed before source' since e ∧
        Expression.compile (registered registry before) text oneTime = .ok e ∧
        (after registry uses).parse source = (.ok e, after registry uses)) ∨
      Unparsed registry uses trimmed ∧
        ((after registry uses).parse source).1 =
          Expression.compile (registered registry uses) text oneTime) ∧
    (∀ e, ((after registry uses).parse source).1 = .ok e →
      e.source = text ∧ e.oneTime = oneTime) ∧
    ∀ error, ((after registry uses).parse source).1 = .error error →
      ((after registry uses).parse source).2 = after registry uses := by
  have hremembers := remembers_after registry uses trimmed
  have hkey := key_eq_iff.2 htrim
  refine (and_assoc.1 ⟨?_, fun error herror => snd_parse_of_error herror⟩)
  cases hcached : (after registry uses).cache.get? trimmed with
  | some e =>
    rw [hcached] at hremembers
    obtain ⟨before, source', since, hfirst, hnow⟩ := hremembers
    rw [compileNow_of_spells hfirst.trims hspells] at hnow
    have hparse := parse_of_cached (hkey ▸ hcached)
    refine ⟨.inl ⟨e, before, source', since, hfirst, hnow, hparse⟩, fun e' he' => ?_⟩
    rw [hparse] at he'
    cases he'
    exact source_of_compile hnow
  | none =>
    rw [hcached] at hremembers
    have hparse : ((after registry uses).parse source).1 =
        Expression.compile (registered registry uses) text oneTime := by
      rw [parse_eq_compileNow (hkey ▸ hcached), registry_after,
        compileNow_of_spells htrim hspells]
      cases Expression.compile (registered registry uses) text oneTime <;> rfl
    exact ⟨.inr ⟨hremembers, hparse⟩, fun e he => source_of_compile (hparse ▸ he)⟩

/-! ## Two spellings of one text -/

/-- A filter before it is replaced. -/
def oldFilter : Filter := ⟨"old", false⟩

/-- A one-time expression with a filter is parsed, and then the filter is replaced. -/
def replaced : List Use :=
  [.register "f" oldFilter, .parse " ::a | f", .register "f" ⟨"new", true⟩]

lemma compile_filters : ∃ e,
    Expression.compile (registered .empty [.register "f" oldFilter]) "a | f" true = .ok e ∧
      e.filters = [("f", oldFilter)] := by
  generalize hx : Expression.compile _ _ _ = x
  cbv at hx
  subst hx
  exact ⟨_, rfl, rfl⟩

/-- With other blanks around it, the source gives what was compiled with the first filter. -/
theorem spellings_share : Text.trim " ::a | f" = Text.trim "::a | f  " ∧ ∃ e,
    (after .empty replaced).parse "::a | f  " = (.ok e, after .empty replaced) ∧
      e.source = "a | f" ∧ e.oneTime = true ∧ e.filters = [("f", oldFilter)] := by
  have htrim : Text.TrimsTo " ::a | f" "::a | f" := Text.trim_eq_iff.1 rfl
  have htrim' : Text.TrimsTo "::a | f  " "::a | f" := Text.trim_eq_iff.1 rfl
  have hspells : Spells "::a | f" "a | f" true := spells_iff.2 rfl
  obtain ⟨e, hcompiled, hfilters⟩ := compile_filters
  obtain ⟨hshared | ⟨hunparsed, -⟩, hspelled, -⟩ := parse_after .empty replaced htrim' hspells
  · obtain ⟨e', before, source, since, hfirst, hcompiled', hparse⟩ := hshared
    -- there is only one parse, and it comes after the first registration
    obtain rfl : before = [.register "f" oldFilter] := by
      have hsplit := hfirst.split
      rcases before with _ | ⟨first, _ | ⟨second, _ | ⟨third, before⟩⟩⟩ <;>
        simp_all [replaced]
    cases hcompiled'.symm.trans hcompiled
    obtain ⟨hsource, honeTime⟩ := hspelled e (congrArg Prod.fst hparse)
    exact ⟨rfl, e, hparse, hsource, honeTime, hfilters⟩
  · refine absurd ?_ (hunparsed [_] _ [_] e rfl (by simp) htrim)
    rw [parse_eq_compileNow rfl, compileNow_of_spells htrim hspells, registry_after, hcompiled]

end Compiler

end DataBinding
