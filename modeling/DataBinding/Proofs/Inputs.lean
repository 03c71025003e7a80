import DataBinding.Expression
import DataBinding.Proofs.Contents

/-!
# What determines the value of an expression

The inputs of an expression are parts of it that are watched in its place: unless one of them has
changed, the expression is not evaluated again.  It is made of its inputs and of constants
(`Expr.MadeOf.watched`), so its value can depend on nothing but what the values of the inputs are,
and on what they hold.

If each input is steady between two settings, then the expression has values with the same contents
in both, or the same error, or no end in either (`Expression.alike_of_steady`).  Steady means three
things: the values are the same, they are not the two zeros, and all that can be reached from them
is unchanged.  The first of these is all that a watch of inputs looks at, and it does not do without
the others: an array may have another element and be the same array (`joined_differs`), and the two
zeros are the same number and have different inverses (`inverse_differs`).
-/

namespace DataBinding

open Compute (runOn)

variable {σ : Type}

/-! ## Parts that are watched -/

namespace Expr

variable {P P' : Expr → Prop} {stateful : String → Bool} {e p : Expr}

/-- The expression is a name. -/
def IsName (e : Expr) : Prop := ∃ s, e = .place (.name s)

/-- The parts may be made of smaller parts in turn. -/
lemma MadeOf.bind (he : e.MadeOf P) (hparts : ∀ p, P p → p.MadeOf P') : e.MadeOf P' := by
  induction he with
  | part he => exact hparts _ he
  | literal l => exact .literal l
  | array _ ih => exact .array ih
  | object _ ih => exact .object ih
  | member _ key ih => exact .member ih key
  | element _ _ ihbase ihkey => exact .element ihbase ihkey
  | filter name _ _ ihinput ihargs => exact .filter name ihinput ihargs
  | unary op _ ih => exact .unary op ih
  | binary op _ _ ihleft ihright => exact .binary op ihleft ihright
  | logical op _ _ ihleft ihright => exact .logical op ihleft ihright
  | conditional _ _ _ ihtest ihconsequent ihalternate =>
    exact .conditional ihtest ihconsequent ihalternate

lemma MadeOf.mono (he : e.MadeOf P) (hPP' : ∀ p, P p → P' p) : e.MadeOf P' :=
  he.bind fun p hp => .part (hPP' p hp)

lemma watchList_eq (items : List Expr) :
    watchList stateful items = items.map (watch stateful) := by
  induction items with
  | nil => rfl
  | cons e rest ih => rw [watchList, ih, List.map_cons]

lemma watchProperties_eq (properties : List (PropertyKey × Expr)) :
    watchProperties stateful properties = properties.map fun x => x.2.watch stateful := by
  induction properties with
  | nil => rfl
  | cons x rest ih => rw [watchProperties, ih, List.map_cons]

/-- A union of watches is constant just if each of them is. -/
lemma constant_union_iff {ι : Type} {ws : List (Watch ι)} :
    (Watch.union ws).constant = true ↔ ∀ w ∈ ws, w.constant = true := by
  simp [Watch.union]

lemma mem_watched_union_iff {ι : Type} {ws : List (Watch ι)} {x : ι} :
    x ∈ (Watch.union ws).watched ↔ ∃ w ∈ ws, w.constant = false ∧ x ∈ w.watched := by
  simp only [Watch.union, List.mem_flatMap]
  refine exists_congr fun w => and_congr_right fun _ => ?_
  cases w.constant <;> simp

/-- No name is in an expression whose value can never change. -/
lemma MadeOf.of_constant (he : e.MadeOf IsName) (hconstant : (e.watch stateful).constant = true) :
    e.MadeOf fun _ => False := by
  induction he with
  | part he =>
    obtain ⟨s, rfl⟩ := he
    simp [watch, Watch.itself, placeConstant] at hconstant
  | literal l => exact .literal l
  | array _ ih =>
    rw [watch, watchList_eq, constant_union_iff] at hconstant
    exact .array fun e he => ih e he (hconstant _ (List.mem_map_of_mem he))
  | object _ ih =>
    rw [watch, watchProperties_eq, constant_union_iff] at hconstant
    exact .object fun x hx => ih x hx (hconstant _ (List.mem_map_of_mem hx))
  | member _ key ih =>
    simp only [watch, Watch.itself, placeConstant] at hconstant
    exact .member (ih hconstant) key
  | element _ _ ihbase ihkey =>
    simp only [watch, Watch.itself, placeConstant, Bool.and_eq_true] at hconstant
    exact .element (ihbase hconstant.1) (ihkey hconstant.2)
  | filter name _ _ ihinput ihargs =>
    rw [watch, watchList_eq] at hconstant
    split at hconstant
    · cases hconstant
    · rw [constant_union_iff, List.forall_mem_cons, List.forall_mem_map] at hconstant
      exact .filter name (ihinput hconstant.1) fun e he => ihargs e he (hconstant.2 e he)
  | unary op _ ih =>
    rw [watch] at hconstant
    exact .unary op (ih hconstant)
  | binary op _ _ ihleft ihright =>
    simp only [watch, Watch.both, Bool.and_eq_true] at hconstant
    exact .binary op (ihleft hconstant.1) (ihright hconstant.2)
  | logical op _ _ ihleft ihright =>
    simp only [watch, Watch.itself, Bool.and_eq_true] at hconstant
    exact .logical op (ihleft hconstant.1) (ihright hconstant.2)
  | conditional _ _ _ ihtest ihconsequent ihalternate =>
    simp only [watch, Watch.itself, Bool.and_eq_true] at hconstant
    exact .conditional (ihtest hconstant.1.1) (ihconsequent hconstant.1.2)
      (ihalternate hconstant.2)

/-- An operand in a union is made of what is watched of the union: it is constant, or all that is
watched of it is among that. -/
lemma MadeOf.of_union {ws : List (Watch Expr)} (he : e.MadeOf IsName)
    (hmem : e.watch stateful ∈ ws) (hwatched : e.MadeOf (· ∈ (e.watch stateful).watched)) :
    e.MadeOf (· ∈ (Watch.union ws).watched) := by
  cases hconstant : (e.watch stateful).constant with
  | true => exact (he.of_constant hconstant).mono fun _ => False.elim
  | false => exact hwatched.mono fun p hp => mem_watched_union_iff.2 ⟨_, hmem, hconstant, hp⟩

/-- An expression is made of what is watched of it. -/
lemma MadeOf.watched (he : e.MadeOf IsName) : e.MadeOf (· ∈ (e.watch stateful).watched) := by
  induction he with
  | part he =>
    obtain ⟨s, rfl⟩ := he
    exact .part (.head _)
  | literal l => exact .literal l
  | array hitems ih =>
    rw [watch, watchList_eq]
    exact .array fun e he => (hitems e he).of_union (List.mem_map_of_mem he) (ih e he)
  | object hproperties ih =>
    rw [watch, watchProperties_eq]
    exact .object fun x hx => (hproperties x hx).of_union (List.mem_map_of_mem hx) (ih x hx)
  | member | element | logical | conditional => exact .part (.head _)
  | filter name hinput hargs ihinput ihargs =>
    rw [watch, watchList_eq]
    split
    · exact .part (.head _)
    · exact .filter name (hinput.of_union (.head _) ihinput) fun e he =>
        (hargs e he).of_union (.tail _ (List.mem_map_of_mem he)) (ihargs e he)
  | unary op _ ih => exact .unary op ih
  | binary op _ _ ihleft ihright =>
    exact .binary op (ihleft.mono fun _ => List.mem_append_left _)
      (ihright.mono fun _ => List.mem_append_right _)

/-- What is watched of an expression is made of the same parts as it is itself, if this goes for
these parts. -/
lemma MadeOf.of_mem_watched (hparts : ∀ e, P e → ∀ p ∈ (e.watch stateful).watched, p.MadeOf P)
    (he : e.MadeOf P) (hp : p ∈ (e.watch stateful).watched) : p.MadeOf P := by
  induction he with
  | part he => exact hparts _ he p hp
  | literal l => cases hp
  | array hitems ih =>
    rw [watch, watchList_eq, mem_watched_union_iff] at hp
    obtain ⟨w, hw, -, hp⟩ := hp
    obtain ⟨e, he, rfl⟩ := List.mem_map.1 hw
    exact ih e he hp
  | object hproperties ih =>
    rw [watch, watchProperties_eq, mem_watched_union_iff] at hp
    obtain ⟨w, hw, -, hp⟩ := hp
    obtain ⟨x, hx, rfl⟩ := List.mem_map.1 hw
    exact ih x hx hp
  | member hbase key =>
    obtain rfl := List.mem_singleton.1 hp
    exact .member hbase key
  | element hbase hkey =>
    obtain rfl := List.mem_singleton.1 hp
    exact .element hbase hkey
  | logical op hleft hright =>
    obtain rfl := List.mem_singleton.1 hp
    exact .logical op hleft hright
  | conditional htest hconsequent halternate =>
    obtain rfl := List.mem_singleton.1 hp
    exact .conditional htest hconsequent halternate
  | filter name hinput hargs ihinput ihargs =>
    rw [watch, watchList_eq] at hp
    split at hp
    · obtain rfl := List.mem_singleton.1 hp
      exact .filter name hinput hargs
    · obtain ⟨w, hw, -, hp⟩ := mem_watched_union_iff.1 hp
      rcases List.mem_cons.1 hw with rfl | hw
      · exact ihinput hp
      · obtain ⟨e, he, rfl⟩ := List.mem_map.1 hw
        exact ihargs e he hp
  | unary op _ ih => exact ih hp
  | binary op _ _ ihleft ihright =>
    rcases List.mem_append.1 hp with hp | hp
    · exact ihleft hp
    · exact ihright hp

/-- Of a name the name itself is watched. -/
lemma IsName.madeOf_of_mem_watched (he : e.IsName) (hp : p ∈ (e.watch stateful).watched) :
    p.MadeOf IsName := by
  obtain ⟨s, rfl⟩ := he
  obtain rfl := List.mem_singleton.1 hp
  exact .part ⟨s, rfl⟩

/-! ## Evaluating a part later -/

/-- A part that is evaluated when there are more containers than before has the same value, if this
is one of the values that were there before. -/
lemma eval_of_keeps {lib : Library σ} {env : Env} (he : e.MadeOf IsName)
    (hlib : ∀ name behaviour, env.filters.lookup name = some behaviour → lib.Contentual behaviour)
    {s s' t : Store σ} {v : Value} (hclosed : s.heap.Closed) (hcontext : s.heap.Has env.context)
    (hlocals : ∀ locals ∈ env.locals, s.heap.Has locals)
    (hrun : runOn (e.eval lib env .read) s = some (.ok v, t)) (hv : s.heap.Has v)
    (hkeeps : s.heap.Keeps s'.heap) : ∃ t', runOn (e.eval lib env .read) s' = some (.ok v, t') ∧
      s'.heap.Keeps t'.heap := by
  have hcorresponds : (Renaming.only s.heap.Has).Corresponds s.heap s'.heap :=
    Renaming.corresponds_only (fun _ => hkeeps.sameAt) fun _ _ => hclosed.has_of_refers
  have hlocals' : Option.Rel (Renaming.only s.heap.Has).Matches env.locals env.locals := by
    cases hl : env.locals with
    | none => exact .none
    | some locals => exact .some (Renaming.matches_only (hlocals _ hl))
  have hmirrors : Mirrors s.heap s'.heap (.only s.heap.Has) Renaming.Matches (e.eval lib env .read)
      (e.eval lib env .read) := by
    refine mirrors_eval rfl rfl (fun _ _ hlookup => (hlib _ _ hlookup).runsAlike _ _ _)
      (fun p hp => ?_) he
    obtain ⟨name, rfl⟩ := hp
    exact mirrors_name rfl (Renaming.matches_only hcontext) hlocals' name
  obtain ⟨ρ, r', t', hle, hrelates, hrun', hagree⟩ :=
    hmirrors le_rfl ⟨hcorresponds, .refl _, .refl _⟩ hrun
  cases hagree with
  | ok hvw =>
    obtain rfl := Renaming.eq_of_matches hrelates.corresponds hle hv hvw
    exact ⟨t', hrun', hrelates.right⟩

end Expr

/-! ## Evaluating in two states -/

/-- What an expression is evaluated over: the store, and what its names are looked up in. -/
structure Setting (σ : Type) where
  store : Store σ
  context : Value
  locals : Option Value

/-- The heap has whatever is referred to. -/
structure Setting.Sound (x : Setting σ) : Prop where
  heap : x.store.heap.Closed
  context : x.store.heap.Has x.context
  locals : ∀ locals ∈ x.locals, x.store.heap.Has locals

namespace Expression

variable {e : Expression} {lib : Library σ} {n : ℕ} {x y : Setting σ}

/-- A part has the same value in two settings: one that does not differ in the sign of a zero, and
whose contents are the same. -/
def Steady (e : Expression) (lib : Library σ) (n : ℕ) (x y : Setting σ) (part : Expr) : Prop :=
  ∃ v w t u, runOn (e.evalPart part lib n x.context x.locals) x.store = some (.ok v, t) ∧
    runOn (e.evalPart part lib n y.context y.locals) y.store = some (.ok w, u) ∧
    v.same w = true ∧ ¬ v.OppositeZeros w ∧ x.store.heap.Unchanged y.store.heap v

/-- Values of two stores have the same contents, and so the same frozen form. -/
def DeepEqual (s s' : Store σ) (v w : Value) : Prop :=
  Renaming.SameContents s.heap s'.heap v w ∧ s.heap.freeze? v = s'.heap.freeze? w

/-- The ends of an evaluation in two settings: none in both, the same error, or values with the same
contents. -/
def Alike (x y : Option (Except Error Value × Store σ)) : Prop :=
  Option.Rel (fun p q => Agree (DeepEqual p.2 q.2) p.1 q.1) x y

/-- A filter that is found is one of the expression's. -/
lemma exists_of_lookup {name behaviour : String} {context : Value} {locals : Option Value}
    (hlookup : (e.env n context locals).filters.lookup name = some behaviour) :
    ∃ filter ∈ e.filters, filter.2.behaviour = behaviour := by
  obtain ⟨before, after, heq, -⟩ := List.lookup_eq_some_iff.1 hlookup
  have hmem : (name, behaviour) ∈ (e.env n context locals).filters := by
    rw [heq]
    exact List.mem_append_right _ (.head _)
  obtain ⟨filter, hfilter, hpair⟩ := List.mem_map.1 hmem
  cases hpair
  exact ⟨filter, hfilter, rfl⟩

lemma contentual_of_lookup {name behaviour : String} {context : Value} {locals : Option Value}
    (hfilters : ∀ filter ∈ e.filters, lib.Contentual filter.2.behaviour)
    (hlookup : (e.env n context locals).filters.lookup name = some behaviour) :
    lib.Contentual behaviour := by
  obtain ⟨filter, hfilter, rfl⟩ := exists_of_lookup hlookup
  exact hfilters filter hfilter

/-- An expression that has inputs is a single statement, and they are what is watched of it. -/
lemma exists_of_inputs (hinputs : e.inputs ≠ []) :
    ∃ s, e.body = [s] ∧ e.inputs = (s.watch e.stateful).watched := by
  unfold inputs statement? at hinputs ⊢
  split at hinputs
  · next s hs =>
    split at hs
    · next s' hbody =>
      cases hs
      refine ⟨s, hbody, ?_⟩
      unfold Expr.inputs at hinputs ⊢
      split at hinputs
      · exact absurd rfl hinputs
      · next hself => exact if_neg hself
    · cases hs
  · exact absurd rfl hinputs

lemma eval_eq_of_body {s : Expr} (hbody : e.body = [s]) (context : Value) (locals : Option Value) :
    e.eval lib n context locals = e.evalPart s lib n context locals := by
  rw [eval, hbody, Expr.evalStatements]
  exact bind_pure _

lemma Steady.symm {part : Expr} (hpart : e.Steady lib n x y part) : e.Steady lib n y x part := by
  obtain ⟨v, w, t, u, hv, hw, hsame, hzeros, hunchanged⟩ := hpart
  obtain rfl := Value.eq_of_same hsame hzeros
  exact ⟨v, v, u, t, hw, hv, hsame, hzeros, hunchanged.symm⟩

/-- A part that is steady runs alike, whenever it is evaluated. -/
lemma Steady.mirrors {part : Expr} (hpart : part.MadeOf Expr.IsName)
    (hfilters : ∀ filter ∈ e.filters, lib.Contentual filter.2.behaviour) (hx : x.Sound)
    (hy : y.Sound) (hsteady : e.Steady lib n x y part) :
    Mirrors x.store.heap y.store.heap (.only (x.store.heap.Unchanged y.store.heap))
      Renaming.Matches (e.evalPart part lib n x.context x.locals)
      (e.evalPart part lib n y.context y.locals) := by
  intro ρ hle s₁ s₂ hs r t₁ hrun
  obtain ⟨v, w, t, u, hv, hw, hsame, hzeros, hunchanged⟩ := hsteady
  obtain rfl := Value.eq_of_same hsame hzeros
  obtain ⟨t', hrun', hkeeps⟩ := Expr.eval_of_keeps hpart
    (fun _ _ => contentual_of_lookup hfilters) hx.heap hx.context hx.locals hv
    (hunchanged v .refl).has hs.left
  obtain ⟨u', hrun'', hkeeps'⟩ := Expr.eval_of_keeps hpart
    (fun _ _ => contentual_of_lookup hfilters) hy.heap hy.context hy.locals hw
    (hunchanged v .refl).symm.has hs.right
  cases hrun.symm.trans hrun'
  exact ⟨ρ, .ok v, u', le_rfl, ⟨hs.corresponds.keeps hkeeps hkeeps', hs.left.trans hkeeps,
    hs.right.trans hkeeps'⟩, hrun'', .ok ((Renaming.matches_only hunchanged).mono hle)⟩

lemma exists_agree (hinputs : e.inputs ≠ []) (hbody : ∀ s ∈ e.body, s.MadeOf Expr.IsName)
    (hfilters : ∀ filter ∈ e.filters, lib.Contentual filter.2.behaviour) (hx : x.Sound)
    (hy : y.Sound) (hsteady : ∀ part ∈ e.inputs, e.Steady lib n x y part)
    {r : Except Error Value} {t : Store σ}
    (hrun : runOn (e.eval lib n x.context x.locals) x.store = some (r, t)) :
    ∃ r' u, runOn (e.eval lib n y.context y.locals) y.store = some (r', u) ∧
      Agree (DeepEqual t u) r r' := by
  obtain ⟨s, hs, hwatched⟩ := exists_of_inputs hinputs
  rw [hwatched] at hsteady
  have hnames : s.MadeOf Expr.IsName := hbody s (hs ▸ .head _)
  rw [eval_eq_of_body hs] at hrun ⊢
  have hmirrors : Mirrors x.store.heap y.store.heap (.only (x.store.heap.Unchanged y.store.heap))
      Renaming.Matches (e.evalPart s lib n x.context x.locals)
      (e.evalPart s lib n y.context y.locals) := by
    have hsource : (e.env n y.context y.locals).source = (e.env n x.context x.locals).source := rfl
    have hpipes : (e.env n y.context y.locals).filters = (e.env n x.context x.locals).filters := rfl
    have hmade : s.MadeOf (· ∈ (s.watch e.stateful).watched) := hnames.watched
    exact Expr.mirrors_eval hsource hpipes
      (fun _ _ hlookup => (contentual_of_lookup hfilters hlookup).runsAlike _ _ _)
      (fun part hpart =>
        (hsteady part hpart).mirrors
          (.of_mem_watched (fun _ he _ => he.madeOf_of_mem_watched) hnames hpart) hfilters hx hy)
      hmade
  obtain ⟨ρ, r', u, -, hrelates, hrun', hagree⟩ :=
    hmirrors le_rfl ⟨Renaming.corresponds_unchanged, .refl _, .refl _⟩ hrun
  refine ⟨r', u, hrun', ?_⟩
  cases hagree with
  | ok hvw =>
    have hcorresponds := hrelates.corresponds
    exact .ok ⟨⟨ρ, hcorresponds, hvw⟩, hcorresponds.freeze?_eq hvw⟩
  | error err => exact .error err

/-- The inputs of an expression determine its value, together with the contents of their values. -/
theorem alike_of_steady (hinputs : e.inputs ≠ []) (hbody : ∀ s ∈ e.body, s.MadeOf Expr.IsName)
    (hfilters : ∀ filter ∈ e.filters, lib.Contentual filter.2.behaviour) (hx : x.Sound)
    (hy : y.Sound) (hsteady : ∀ part ∈ e.inputs, e.Steady lib n x y part) :
    Alike (runOn (e.eval lib n x.context x.locals) x.store)
      (runOn (e.eval lib n y.context y.locals) y.store) := by
  cases hrun : runOn (e.eval lib n x.context x.locals) x.store with
  | some p =>
    obtain ⟨r', u, hrun', hagree⟩ := exists_agree hinputs hbody hfilters hx hy hsteady hrun
    rw [hrun']
    exact .some hagree
  | none =>
    cases hrun' : runOn (e.eval lib n y.context y.locals) y.store with
    | none => exact .none
    | some q =>
      obtain ⟨r, t, hend, -⟩ :=
        exists_agree hinputs hbody hfilters hy hx (fun p hp => (hsteady p hp).symm) hrun'
      cases hrun.symm.trans hend

end Expression

/-! ## An array that is joined -/

/-- A library whose filters yield their first argument. -/
def plainLibrary : Library Unit where
  call _ _ _ := .endless
  filter _ args := pure (args.head?.getD .undefined)

lemma plainLibrary_contentual (behaviour : String) : plainLibrary.Contentual behaviour := by
  intro b c ρ args args' hargs
  refine Mirrors.pure fun _ hle => ?_
  cases hargs with
  | nil => exact .plain rfl
  | cons hvw _ => exact hvw.mono hle

/-- The text of what a filter yields of a property. -/
def joined : Expression where
  source := "'' + (a | given)"
  body := [.binary .add (.literal (.string "")) (.filter "given" (.place (.name "a")) [])]
  filters := [("given", ⟨"given", false⟩)]
  oneTime := false

/-- The property is an array. -/
def joining (items : List Value) (others : List (String × Value)) : Setting Unit where
  store := ⟨⟨#[items.toArray], #[⟨⟨("a", .array 0) :: others⟩, none⟩], #[]⟩, ()⟩
  context := .object 0
  locals := none

lemma joined_names : ∀ s ∈ joined.body, s.MadeOf Expr.IsName := by
  intro s hs
  obtain rfl := List.mem_singleton.1 hs
  exact .binary _ (.literal _) (.filter _ (.part ⟨"a", rfl⟩) nofun)

lemma joined_inputs : joined.inputs = [.place (.name "a")] := rfl

section Joining

variable {items : List Value} {others others' : List (String × Value)}

lemma joining_sound (hitems : ∀ v ∈ items, v.isContainer = false)
    (hothers : ∀ x ∈ others, x.2.isContainer = false) : (joining items others).Sound := by
  have hplain : ∀ {h : Heap} {v : Value}, v.isContainer = false → h.Has v := by
    intro h v hv
    cases v with
    | array | object | function => cases hv
    | _ => trivial
  refine ⟨fun v w hw => ?_, Nat.one_pos, nofun⟩
  cases v with
  | array a =>
    cases a with
    | zero => exact hplain (hitems w hw)
    | succ => cases hw
  | object o =>
    cases o with
    | zero =>
      rcases List.mem_cons.1 hw with rfl | hw
      · exact Nat.one_pos
      · obtain ⟨x, hx, rfl⟩ := List.mem_map.1 hw
        exact hplain (hothers x hx)
    | succ => cases hw
  | _ => cases hw

lemma joining_unchanged (hitems : ∀ v ∈ items, v.isContainer = false) :
    (joining items others).store.heap.Unchanged (joining items others').store.heap
      (.array 0) := by
  intro w hw
  rcases hw.cases_head with rfl | ⟨v, hv | ⟨o, p, ho, -⟩, hrest⟩
  · exact ⟨items.toArray, rfl, rfl⟩
  · exact Heap.unchanged_of_plain (hitems v hv) w hrest
  · cases ho

lemma joined_input : runOn (joined.evalPart (.place (.name "a")) plainLibrary 0 (.object 0) none)
    (joining items others).store = some (.ok (.array 0), (joining items others).store) := by
  generalize hx : runOn _ _ = x
  cbv at hx
  subst hx
  rfl

/-- The value is the text of the array. -/
lemma joined_run {text : String}
    (htext : (joining items others).store.heap.text? (.array 0) = some text) :
    runOn (joined.eval plainLibrary 0 (.object 0) none) (joining items others).store =
      some (.ok (.string text), (joining items others).store) := by
  have hgiven : runOn ((Expr.filter "given" (.place (.name "a")) []).eval plainLibrary
      (joined.env 0 (.object 0) none) .read) (joining items others).store =
        some (.ok (.array 0), (joining items others).store) := by
    rw [Expr.eval]
    exact (Compute.runOn_bind_of_ok joined_input).trans rfl
  have hsum : (joining items others).store.heap.binary .add (.string "") (.array 0) =
      some (.string text) := by
    change (((joining items others).store.heap.text? (.array 0)).bind fun t =>
      some (Value.string ("" ++ t))) = _
    rw [htext, Option.bind_some, String.empty_append]
  rw [Expression.eval_eq_of_body rfl, Expression.evalPart, Expr.eval, Expr.eval,
    Compute.runOn_bind_of_ok (Compute.runOn_pure _ _), Compute.runOn_bind_of_ok hgiven]
  exact Option.map_eq_some_iff.2 ⟨_, hsum, rfl⟩

end Joining

/-- The text is the same where another property has come. -/
theorem joined_alike :
    runOn (joined.eval plainLibrary 0 (.object 0) none) (joining [.string "x"] []).store =
        some (.ok (.string "x"), (joining [.string "x"] []).store) ∧
      Expression.Alike
        (runOn (joined.eval plainLibrary 0 (.object 0) none) (joining [.string "x"] []).store)
        (runOn (joined.eval plainLibrary 0 (.object 0) none)
          (joining [.string "x"] [("b", .string "y")]).store) := by
  have hx : (joining [.string "x"] []).Sound := joining_sound (by simp [Value.isContainer]) nofun
  have hy : (joining [.string "x"] [("b", .string "y")]).Sound :=
    joining_sound (by simp [Value.isContainer]) (by simp [Value.isContainer])
  refine ⟨joined_run rfl, Expression.alike_of_steady (x := joining [.string "x"] [])
    (y := joining [.string "x"] [("b", .string "y")]) ?_ joined_names
    (fun _ _ => plainLibrary_contentual _) hx hy fun part hpart => ?_⟩
  · rw [joined_inputs]
    exact List.cons_ne_nil _ _
  · obtain rfl := List.mem_singleton.1 hpart
    exact ⟨_, _, _, _, joined_input, joined_input, rfl, by simp [Value.OppositeZeros],
      joining_unchanged (by simp [Value.isContainer])⟩

/-- That the inputs are the same is not enough: the array is the same one, but it has another
element, and the text is another. -/
theorem joined_differs :
    joined.inputs = [.place (.name "a")] ∧ (∀ s ∈ joined.body, s.MadeOf Expr.IsName) ∧
      (∀ filter ∈ joined.filters, plainLibrary.Contentual filter.2.behaviour) ∧
      (joining [.string "x"] []).Sound ∧ (joining [.string "x", .string "y"] []).Sound ∧
      (∃ v w t u,
        runOn (joined.evalPart (.place (.name "a")) plainLibrary 0 (.object 0) none)
          (joining [.string "x"] []).store = some (.ok v, t) ∧
        runOn (joined.evalPart (.place (.name "a")) plainLibrary 0 (.object 0) none)
          (joining [.string "x", .string "y"] []).store = some (.ok w, u) ∧
        v.same w = true) ∧
      ¬ Expression.Alike
        (runOn (joined.eval plainLibrary 0 (.object 0) none) (joining [.string "x"] []).store)
        (runOn (joined.eval plainLibrary 0 (.object 0) none)
          (joining [.string "x", .string "y"] []).store) := by
  refine ⟨joined_inputs, joined_names, fun _ _ => plainLibrary_contentual _,
    joining_sound (by simp [Value.isContainer]) nofun,
    joining_sound (by simp [Value.isContainer]) nofun,
    ⟨_, _, _, _, joined_input, joined_input, rfl⟩, fun halike => ?_⟩
  have hone : runOn _ (joining [.string "x"] []).store = _ :=
    joined_run (show _ = some "x" from rfl)
  have htwo : runOn _ (joining [.string "x", .string "y"] []).store = _ :=
    joined_run (show _ = some "x,y" from rfl)
  rw [hone, htwo] at halike
  cases halike with
  | some hagree =>
    cases hagree with
    | ok hequal =>
      have hleaf : some (Frozen.leaf (.string "x")) = some (.leaf (.string "x,y")) := hequal.2
      simp at hleaf

/-! ## A number that is divided by -/

/-- One divided by a property. -/
def inverse : Expression where
  source := "1 / a"
  body := [.binary .div (.literal (.number 1)) (.place (.name "a"))]
  filters := []
  oneTime := false

/-- The property is a number. -/
def dividing (x : Float) : Setting Unit where
  store := ⟨⟨#[], #[⟨⟨[("a", .number x)]⟩, none⟩], #[]⟩, ()⟩
  context := .object 0
  locals := none

lemma inverse_input (x : Float) :
    runOn (inverse.evalPart (.place (.name "a")) plainLibrary 0 (.object 0) none)
      (dividing x).store = some (.ok (.number x), (dividing x).store) := by
  generalize hy : runOn _ _ = y
  cbv at hy
  subst hy
  rfl

lemma inverse_run (x : Float) :
    runOn (inverse.eval plainLibrary 0 (.object 0) none) (dividing x).store =
      some (.ok (.number (1 / x)), (dividing x).store) := by
  rw [Expression.eval_eq_of_body rfl, Expression.evalPart, Expr.eval, Expr.eval,
    Compute.runOn_bind_of_ok (Compute.runOn_pure _ _)]
  exact (Compute.runOn_bind_of_ok (inverse_input x)).trans rfl

/-- Nor is it enough that their contents are the same, too: the two zeros are the same, and what is
divided by them is not. -/
theorem inverse_differs :
    inverse.inputs = [.place (.name "a")] ∧
      (Value.number 0).same (.number (-0)) = true ∧
      (dividing 0).store.heap.Unchanged (dividing (-0)).store.heap (.number 0) ∧
      ¬ Expression.Alike
        (runOn (inverse.eval plainLibrary 0 (.object 0) none) (dividing 0).store)
        (runOn (inverse.eval plainLibrary 0 (.object 0) none) (dividing (-0)).store) := by
  refine ⟨rfl, by decide, Heap.unchanged_of_plain rfl, fun halike => ?_⟩
  rw [inverse_run, inverse_run] at halike
  cases halike with
  | some hagree =>
    cases hagree with
    | ok hequal =>
      have hleaf : some (Frozen.leaf (.number (1 / 0))) = some (.leaf (.number (1 / -0))) :=
        hequal.2
      have hne : (1 / 0 : Float) ≠ 1 / -0 := by decide
      simp at hleaf
      exact hne hleaf

end DataBinding
