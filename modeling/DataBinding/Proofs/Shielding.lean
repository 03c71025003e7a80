import DataBinding.Proofs.Inputs
import DataBinding.Proofs.Mimicry
import DataBinding.Proofs.Trails

/-!
# Locals in front of the context

A name is looked up in the locals if these have it.  So an expression whose names they all have does
not come to the context, unless it says `this` or calls a function (`Expr.Sheltered`).  That remains
so while it is evaluated, for an assignment may write the locals but takes no member away from them.

Evaluated in two contexts, over stores that may differ in everything that the locals do not reach,
such an expression yields the same, up to the identity of what is made on the way; what the locals
reach is the same afterwards, and what they do not reach is as it was
(`Expression.locals_shield_context`).
-/

namespace DataBinding

open Compute (runOn)
open Relation (ReflTransGen)

variable {σ : Type}

/-! ## Under shelter -/

/-- The expression has neither `this` nor a call of a function in it, and the names in it have the
property. -/
inductive Expr.Sheltered (P : String → Prop) : Expr → Prop
  | literal (l : Literal) : Sheltered P (.literal l)
  | array {items : List Expr} (hitems : ∀ e ∈ items, Sheltered P e) : Sheltered P (.array items)
  | object {properties : List (PropertyKey × Expr)}
    (hproperties : ∀ x ∈ properties, Sheltered P x.2) : Sheltered P (.object properties)
  | locals : Sheltered P .locals
  | name {s : String} (hs : P s) : Sheltered P (.place (.name s))
  | member {base : Expr} (hbase : Sheltered P base) (key : String) :
    Sheltered P (.place (.member base key))
  | element {base key : Expr} (hbase : Sheltered P base) (hkey : Sheltered P key) :
    Sheltered P (.place (.element base key))
  | filter (name : String) {input : Expr} {args : List Expr} (hinput : Sheltered P input)
    (hargs : ∀ e ∈ args, Sheltered P e) : Sheltered P (.filter name input args)
  | assign {target : Place} {value : Expr} (htarget : Sheltered P (.place target))
    (hvalue : Sheltered P value) : Sheltered P (.assign target value)
  | unary (op : UnaryOp) {operand : Expr} (hoperand : Sheltered P operand) :
    Sheltered P (.unary op operand)
  | binary (op : BinaryOp) {left right : Expr} (hleft : Sheltered P left)
    (hright : Sheltered P right) : Sheltered P (.binary op left right)
  | logical (op : LogicalOp) {left right : Expr} (hleft : Sheltered P left)
    (hright : Sheltered P right) : Sheltered P (.logical op left right)
  | conditional {test consequent alternate : Expr} (htest : Sheltered P test)
    (hconsequent : Sheltered P consequent) (halternate : Sheltered P alternate) :
    Sheltered P (.conditional test consequent alternate)

/-- The heaps correspond, the locals stand for themselves, and they have the names. -/
structure Renaming.Shelters (P : String → Prop) (l : ℕ) (ρ : Renaming) (h k : Heap) : Prop where
  corresponds : ρ.Corresponds h k
  locals : ρ.objects l l
  names : ∀ name, P name → h.hasMember (.object l) name = true

/-- Locations that stand for each other. -/
structure Location.Matches (ρ : Renaming) (loc loc' : Location) : Prop where
  base : ρ.Matches loc.base loc'.base
  key : loc'.key = loc.key
  value : ρ.Matches loc.value loc'.value

namespace Renaming

variable {P : String → Prop} {l : ℕ} {ρ ρ' : Renaming} {h k h' k' : Heap} {name : String}

/-- What evolves goes on to be sheltered. -/
lemma Shelters.evolves (hshelters : ρ.Shelters P l h k) (hevolves : ρ.Evolves h k ρ' h' k') :
    ρ'.Shelters P l h' k' where
  corresponds := hevolves.corresponds
  locals := hevolves.le.2.1 hshelters.locals
  names name hname := hevolves.left.hasMember (hshelters.names name hname)

end Renaming

/-! ## Looking up in two contexts -/

/-- Two environments for one expression, in which the object holds the locals.  Their contexts may
be any. -/
structure Env.Shares (l : ℕ) (env env' : Env) : Prop where
  source : env'.source = env.source
  filters : env'.filters = env.filters
  locals : env.locals = some (.object l)
  locals' : env'.locals = some (.object l)

namespace Env

variable {P : String → Prop} {l : ℕ} {ρ : Renaming} {s t : Store σ} {env env' : Env}
  {lib : Library σ}

section Guards

variable (henv : env.Shares l env') (hρ : ρ.Corresponds s.heap t.heap)

include henv hρ

lemma mimics_guardMember (key : String) :
    Mimics (fun _ _ _ => True) ρ (env.guardMember key : Compute (Store σ) Unit)
      (env'.guardMember key) s t := by
  unfold guardMember
  rw [henv.source]
  split
  · exact .throw hρ _
  · exact .pure hρ trivial

lemma mimics_guardValue {v w : Value} (hvw : ρ.Matches v w) :
    Mimics (fun _ _ _ => True) ρ (env.guardValue v : Compute (Store σ) Unit)
      (env'.guardValue w) s t := by
  unfold guardValue
  rw [henv.source]
  refine (Mimics.reading (Q := fun _ => Eq) hρ (hρ.forbidden?_eq hvw)).bind ?_
  rintro ρ' s' t' what _ hevolves rfl
  cases what with
  | none => exact .pure hevolves.corresponds trivial
  | some what => exact .throw hevolves.corresponds _

/-- What is read of the heaps alike makes locations that stand for each other, behind the guard. -/
lemma mimics_location {f f' : Heap → Value} (hf : ρ.Matches (f s.heap) (f' t.heap))
    {base base' : Value} (hbase : ρ.Matches base base') (key : String) :
    Mimics Location.Matches ρ
      (Store.reading f >>= fun value => env.guardValue value >>= fun _ => pure ⟨base, key, value⟩ :
        Compute (Store σ) Location)
      (Store.reading f' >>= fun value => env'.guardValue value >>= fun _ =>
        pure ⟨base', key, value⟩) s t := by
  refine (Mimics.reading (Q := Renaming.Matches) hρ hf).bind fun hevolves hvw => ?_
  refine (mimics_guardValue henv hevolves.corresponds hvw).bind fun hevolves' _ => ?_
  exact .pure hevolves'.corresponds
    ⟨hbase.mono (hevolves.trans hevolves').le, rfl, hvw.mono hevolves'.le⟩

lemma mimics_locateMember (access : Access) {v w : Value} (hvw : ρ.Matches v w) (key : String) :
    Mimics Location.Matches ρ (env.locateMember access v key : Compute (Store σ) Location)
      (env'.locateMember access w key) s t := by
  rw [locateMember_eq, locateMember_eq]
  refine (mimics_guardMember henv hρ key).bind fun {ρ' s' t' _ _} hevolves _ => ?_
  have hbase : Mimics (fun _ _ _ => True) ρ'
      (if access = .create then env.guardValue v else pure () : Compute (Store σ) Unit)
      (if access = .create then env'.guardValue w else pure ()) s' t' := by
    split
    · exact mimics_guardValue henv hevolves.corresponds (hvw.mono hevolves.le)
    · exact .pure hevolves.corresponds trivial
  refine hbase.bind fun hevolves' _ => ?_
  have hvw' := hvw.mono (hevolves.trans hevolves').le
  refine mimics_location henv hevolves'.corresponds ?_ hvw' key
  rw [hvw.isNullish_eq]
  split
  · exact .plain rfl
  · exact hevolves'.corresponds.readsAlike.getMember hvw' key

lemma mimics_store {loc loc' : Location} (hloc : loc.Matches ρ loc') {v w : Value}
    (hvw : ρ.Matches v w) :
    Mimics Renaming.Matches ρ (env.store loc v : Compute (Store σ) Value) (env'.store loc' w)
      s t := by
  unfold store
  rw [hloc.key]
  refine (mimics_guardValue henv hρ hvw).bind fun hevolves _ => ?_
  refine (Mimics.setMember hevolves.corresponds (hloc.base.mono hevolves.le) loc.key
    (hvw.mono hevolves.le)).bind fun hevolves' _ => ?_
  exact .pure hevolves'.corresponds (hvw.mono (hevolves.trans hevolves').le)

lemma mimics_applyFilter
    (hlib : ∀ name behaviour, env.filters.lookup name = some behaviour → lib.Functional behaviour)
    (name : String) {args args' : List Value} (hargs : List.Forall₂ ρ.Matches args args') :
    Mimics Renaming.Matches ρ (env.applyFilter lib name args) (env'.applyFilter lib name args')
      s t := by
  unfold applyFilter
  rw [henv.filters]
  split
  · next behaviour hlookup => exact hlib name behaviour hlookup ρ s t args args' hρ hargs
  · exact .throw hρ _

end Guards

/-- A name that the locals have is looked up in the locals. -/
lemma mimics_locateName (henv : env.Shares l env') (hs : ρ.Shelters P l s.heap t.heap)
    {name : String} (hname : P name) :
    Mimics Location.Matches ρ (env.locateName name : Compute (Store σ) Location)
      (env'.locateName name) s t := by
  unfold locateName
  refine (mimics_guardMember henv hs.corresponds name).bind fun {ρ' s' t' _ _} hevolves _ => ?_
  have hs' := hs.evolves hevolves
  have hmember := hs'.names name hname
  have hleft : env.holder s'.heap name = .object l := by
    rw [holder, henv.locals]
    exact if_pos hmember
  have hright : env'.holder t'.heap name = .object l := by
    rw [holder, henv.locals']
    exact if_pos ((hs'.corresponds.hasMember_eq (.object hs'.locals) name).symm.trans hmember)
  refine (Mimics.reading (Q := fun ρ v w => v = .object l ∧ w = .object l) hs'.corresponds
    ⟨hleft, hright⟩).bind ?_
  rintro ρ'' s'' t'' _ _ hevolves' ⟨rfl, rfl⟩
  have hs'' := hs'.evolves hevolves'
  exact mimics_location henv hs''.corresponds
    (hs''.corresponds.readsAlike.getMember (.object hs''.locals) name) (.object hs''.locals) name

end Env

/-- What is missing at a location is put there alike. -/
lemma Location.Matches.mimics_intermediate {ρ : Renaming} {s t : Store σ} {loc loc' : Location}
    (hρ : ρ.Corresponds s.heap t.heap) (hloc : loc.Matches ρ loc') :
    Mimics Renaming.Matches ρ (loc.intermediate : Compute (Store σ) Value) loc'.intermediate
      s t := by
  unfold Location.intermediate
  rw [hloc.value.isNullish_eq, hloc.base.isNullish_eq, hloc.key]
  split
  · refine (Mimics.newObject hρ).bind fun hevolves hop => ?_
    refine (Mimics.setMember hevolves.corresponds (hloc.base.mono hevolves.le) loc.key
      (.object hop)).bind fun hevolves' _ => ?_
    exact .pure hevolves'.corresponds (.object (hevolves'.le.2.1 hop))
  · exact .pure hρ hloc.value

/-! ## Evaluating in two contexts -/

namespace Expr

variable {P : String → Prop} {l : ℕ} {ρ : Renaming} {s t : Store σ} {env env' : Env}
  {lib : Library σ}

/-- The values of an expression stand for each other wherever the locals shelter it. -/
def MimicsIn (lib : Library σ) (env env' : Env) (P : String → Prop) (l : ℕ) (access : Access)
    (e : Expr) : Prop :=
  ∀ ⦃ρ⦄ ⦃s t : Store σ⦄, ρ.Shelters P l s.heap t.heap →
    Mimics Renaming.Matches ρ (e.eval lib env access) (e.eval lib env' access) s t

lemma mimics_evalList {es : List Expr} (hes : ∀ e ∈ es, e.MimicsIn lib env env' P l .read)
    (hs : ρ.Shelters P l s.heap t.heap) :
    Mimics (fun ρ => List.Forall₂ ρ.Matches) ρ (evalList lib env es) (evalList lib env' es)
      s t := by
  induction es generalizing ρ s t with
  | nil =>
    simp only [evalList]
    exact .pure hs.corresponds .nil
  | cons e es ih =>
    simp only [evalList]
    refine (hes e (.head _) hs).bind fun hevolves hvw => ?_
    have hs' := hs.evolves hevolves
    refine (ih (fun e he => hes e (.tail _ he)) hs').bind fun hevolves' hrest => ?_
    exact .pure hevolves'.corresponds (.cons (hvw.mono hevolves'.le) hrest)

lemma mimics_evalProperties {properties : List (PropertyKey × Expr)}
    (hproperties : ∀ x ∈ properties, x.2.MimicsIn lib env env' P l .read)
    (hs : ρ.Shelters P l s.heap t.heap) {o p : ℕ} (hop : ρ.objects o p) :
    Mimics (fun _ _ _ => True) ρ (evalProperties lib env o properties)
      (evalProperties lib env' p properties) s t := by
  induction properties generalizing ρ s t with
  | nil =>
    simp only [evalProperties]
    exact .pure hs.corresponds trivial
  | cons x properties ih =>
    obtain ⟨key, e⟩ := x
    simp only [evalProperties]
    refine (hproperties _ (.head _) hs).bind fun hevolves hvw => ?_
    have hop' := hevolves.le.2.1 hop
    refine (Mimics.setOwn hevolves.corresponds hop' key.text hvw).bind fun hevolves' _ => ?_
    exact ih (fun x hx => hproperties x (.tail _ hx))
      ((hs.evolves hevolves).evolves hevolves') (hevolves'.le.2.1 hop')

/-- The locations of a place stand for each other wherever the locals shelter it. -/
def LocatesIn (lib : Library σ) (env env' : Env) (P : String → Prop) (l : ℕ) (access : Access)
    (p : Place) : Prop :=
  ∀ ⦃ρ⦄ ⦃s t : Store σ⦄, ρ.Shelters P l s.heap t.heap →
    Mimics Location.Matches ρ (locate lib env access p) (locate lib env' access p) s t

/-- A place that is located alike has values that stand for each other. -/
lemma LocatesIn.mimicsIn {access : Access} {p : Place}
    (hp : LocatesIn lib env env' P l access p) :
    (Expr.place p).MimicsIn lib env env' P l access := by
  intro ρ s t hs
  rw [eval, eval]
  refine (hp hs).bind fun hevolves hloc => ?_
  cases access with
  | read => exact .pure hevolves.corresponds hloc.value
  | create => exact hloc.mimics_intermediate hevolves.corresponds

/-- What runs alike as a place and as a value. -/
lemma LocatesIn.both {p : Place} (hp : ∀ access, LocatesIn lib env env' P l access p) :
    (∀ access, (Expr.place p).MimicsIn lib env env' P l access) ∧
      ∀ p', Expr.place p = .place p' → ∀ access, LocatesIn lib env env' P l access p' := by
  refine ⟨fun access => (hp access).mimicsIn, ?_⟩
  rintro _ ⟨⟩
  exact hp

/-- A sheltered expression runs alike in two contexts, whether it is evaluated or, if it is a place,
located. -/
theorem Sheltered.runs_alike (henv : env.Shares l env')
    (hlib : ∀ name behaviour, env.filters.lookup name = some behaviour → lib.Functional behaviour)
    {e : Expr} (he : e.Sheltered P) :
    (∀ access, e.MimicsIn lib env env' P l access) ∧
      ∀ p, e = .place p → ∀ access, LocatesIn lib env env' P l access p := by
  induction he with
  | literal v =>
    refine ⟨fun access ρ s t hs => ?_, nofun⟩
    simp only [eval]
    refine .pure hs.corresponds (.plain ?_)
    cases v <;> rfl
  | locals =>
    refine ⟨fun access ρ s t hs => ?_, nofun⟩
    simp only [eval]
    rw [henv.locals, henv.locals']
    exact .pure hs.corresponds (.object hs.locals)
  | array _ ih =>
    refine ⟨fun access ρ s t hs => ?_, nofun⟩
    simp only [eval]
    refine (mimics_evalList (fun e he => (ih e he).1 .read) hs).bind fun hevolves hvalues => ?_
    refine (Mimics.newArray hevolves.corresponds hvalues).bind fun hevolves' hab => ?_
    exact .pure hevolves'.corresponds (.array hab)
  | object _ ih =>
    refine ⟨fun access ρ s t hs => ?_, nofun⟩
    simp only [eval]
    refine (Mimics.newObject hs.corresponds).bind fun hevolves hop => ?_
    refine (mimics_evalProperties (fun x hx => (ih x hx).1 .read) (hs.evolves hevolves) hop).bind
      fun hevolves' _ => ?_
    exact .pure hevolves'.corresponds (.object (hevolves'.le.2.1 hop))
  | name hname =>
    refine LocatesIn.both fun access ρ s t hs => ?_
    simp only [locate]
    exact Env.mimics_locateName henv hs hname
  | member _ key ih =>
    refine LocatesIn.both fun access ρ s t hs => ?_
    simp only [locate]
    refine (ih.1 access hs).bind fun hevolves hvw => ?_
    exact Env.mimics_locateMember henv hevolves.corresponds access hvw key
  | element _ _ ihbase ihkey =>
    refine LocatesIn.both fun access ρ s t hs => ?_
    simp only [locate]
    refine (ihbase.1 access hs).bind fun hevolves hvw => ?_
    refine (ihkey.1 .read (hs.evolves hevolves)).bind fun hevolves' hkey => ?_
    refine (Mimics.readingEndless (Q := fun _ => Eq) hevolves'.corresponds
      (hevolves'.corresponds.readsAlike.text?_eq hkey) fun _ _ => rfl).bind ?_
    rintro ρ' s' t' text _ hevolves'' rfl
    exact Env.mimics_locateMember henv hevolves''.corresponds access
      (hvw.mono (hevolves'.trans hevolves'').le) text
  | filter name _ _ ihinput ihargs =>
    refine ⟨fun access ρ s t hs => ?_, nofun⟩
    simp only [eval]
    refine (ihinput.1 .read hs).bind fun hevolves hvw => ?_
    refine (mimics_evalList (fun e he => (ihargs e he).1 .read) (hs.evolves hevolves)).bind
      fun hevolves' hargs => ?_
    exact Env.mimics_applyFilter henv hevolves'.corresponds hlib name
      (.cons (hvw.mono hevolves'.le) hargs)
  | @assign target value _ _ ihtarget ihvalue =>
    refine ⟨fun access ρ s t hs => ?_, nofun⟩
    simp only [eval]
    refine (ihtarget.2 target rfl .create hs).bind fun hevolves hloc => ?_
    refine (ihvalue.1 .read (hs.evolves hevolves)).bind fun hevolves' hvw => ?_
    have hloc' : Location.Matches _ _ _ := ⟨hloc.base.mono hevolves'.le, hloc.key,
      hloc.value.mono hevolves'.le⟩
    exact Env.mimics_store henv hevolves'.corresponds hloc' hvw
  | unary op _ ih =>
    refine ⟨fun access ρ s t hs => ?_, nofun⟩
    simp only [eval]
    refine (ih.1 .read hs).bind fun hevolves hvw => ?_
    exact .readingEndless hevolves.corresponds (hevolves.corresponds.readsAlike.unary_eq op hvw)
      fun _ hx => .plain (Heap.isContainer_of_unary hx)
  | binary op _ _ ihleft ihright =>
    refine ⟨fun access ρ s t hs => ?_, nofun⟩
    simp only [eval]
    refine (ihleft.1 .read hs).bind fun hevolves hvw => ?_
    refine (ihright.1 .read (hs.evolves hevolves)).bind fun hevolves' hvw' => ?_
    exact .readingEndless hevolves'.corresponds
      (hevolves'.corresponds.binary_eq op (hvw.mono hevolves'.le) hvw')
      fun _ hx => .plain (Heap.isContainer_of_binary hx)
  | logical op _ _ ihleft ihright =>
    refine ⟨fun access ρ s t hs => ?_, nofun⟩
    cases op with
    | and =>
      simp only [eval]
      refine (ihleft.1 .read hs).bind fun hevolves hvw => ?_
      rw [hvw.truthy_eq]
      split
      · exact ihright.1 .read (hs.evolves hevolves)
      · exact .pure hevolves.corresponds hvw
    | or =>
      simp only [eval]
      refine (ihleft.1 .read hs).bind fun hevolves hvw => ?_
      rw [hvw.truthy_eq]
      split
      · exact .pure hevolves.corresponds hvw
      · exact ihright.1 .read (hs.evolves hevolves)
  | conditional _ _ _ ihtest ihconsequent ihalternate =>
    refine ⟨fun access ρ s t hs => ?_, nofun⟩
    simp only [eval]
    refine (ihtest.1 .read hs).bind fun hevolves hvw => ?_
    rw [hvw.truthy_eq]
    split
    · exact ihconsequent.1 .read (hs.evolves hevolves)
    · exact ihalternate.1 .read (hs.evolves hevolves)

/-- Sheltered statements run alike one after another. -/
lemma mimics_evalStatements {es : List Expr} (hes : ∀ e ∈ es, e.MimicsIn lib env env' P l .read)
    (hs : ρ.Shelters P l s.heap t.heap) {last last' : Value} (hlast : ρ.Matches last last') :
    Mimics Renaming.Matches ρ (evalStatements lib env last es) (evalStatements lib env' last' es)
      s t := by
  induction es generalizing ρ s t last last' with
  | nil =>
    simp only [evalStatements]
    exact .pure hs.corresponds hlast
  | cons e es ih =>
    simp only [evalStatements]
    refine (hes e (.head _) hs).bind fun hevolves hvw => ?_
    exact ih (fun e he => hes e (.tail _ he)) (hs.evolves hevolves) hvw

end Expr

/-! ## Compiled expressions -/

namespace Renaming

variable {P : Value → Prop} {v w : Value}

/-- What has the property stands for itself, and nothing else does but atoms. -/
lemma matches_only_cases (hvw : (only P).Matches v w) : v = w ∧ (v.IsAtom ∨ P v) := by
  cases hvw with
  | plain hplain => exact ⟨rfl, .inl (Value.isAtom_of_plain hplain)⟩
  | intrinsic i => exact ⟨rfl, .inl trivial⟩
  | array hab => exact ⟨congrArg _ hab.1, .inr hab.2⟩
  | object hop => exact ⟨congrArg _ hop.1, .inr hop.2⟩
  | made hf => exact ⟨rfl, .inr hf⟩

end Renaming

/-- What a value reaches in a heap it reaches in every heap in which that is unchanged. -/
lemma Heap.Unchanged.reaches {h k : Heap} {v w : Value} (hv : h.Unchanged k v)
    (hw : ReflTransGen h.Refers v w) : ReflTransGen k.Refers v w := by
  induction hw with
  | refl => exact .refl
  | tail hreached hstep ih => exact ih.tail ((hv _ hreached).symm.refers hstep)

namespace Expression

/-- Two evaluations over the stores have ended alike behind the locals. -/
structure Shielded (s t : Store σ) (l : ℕ) (x y : Except Error Value × Store σ) (ρ : Renaming) :
    Prop where
  /-- They have the same error, or results that stand for each other. -/
  result : Agree ρ.Matches x.1 y.1
  /-- What stands for each other holds the same. -/
  state : ρ.Corresponds x.2.heap y.2.heap
  /-- All that the locals reached at first stands for itself. -/
  reached : ∀ v, ReflTransGen s.heap.Refers (.object l) v → ρ.Matches v v
  /-- Apart from atoms nothing else stands for anything but what both have made on the way. -/
  fresh : ∀ v w, ρ.Matches v w →
    v = w ∧ (v.IsAtom ∨ ReflTransGen s.heap.Refers (.object l) v) ∨ ¬ s.heap.Has v ∧ ¬ t.heap.Has w
  /-- What the locals did not reach at first is as it was. -/
  left : ∀ v, s.heap.Has v → ¬ ReflTransGen s.heap.Refers (.object l) v → s.heap.SameAt x.2.heap v
  right : ∀ v, t.heap.Has v → ¬ ReflTransGen t.heap.Refers (.object l) v → t.heap.SameAt y.2.heap v

lemma Shielded.of_evolves {s t : Store σ} {l : ℕ} {x y : Except Error Value × Store σ}
    {ρ : Renaming} (hsame : s.heap.Unchanged t.heap (.object l))
    (hevolves : (Renaming.only (ReflTransGen s.heap.Refers (.object l))).Evolves s.heap t.heap ρ
      x.2.heap y.2.heap)
    (hagree : Agree ρ.Matches x.1 y.1) : Shielded s t l x y ρ where
  result := hagree
  state := hevolves.corresponds
  reached v hv := (Renaming.matches_only hv).mono hevolves.le
  fresh v w hvw := (hevolves.fresh hvw).imp_left Renaming.matches_only_cases
  left v hv hnot := by
    by_cases hatom : v.IsAtom
    · exact Heap.unchanged_of_isAtom hatom v .refl
    · refine hevolves.left.same hv fun ⟨w, hvw⟩ => ?_
      exact hnot ((Renaming.matches_only_cases hvw).2.resolve_left hatom)
  right w hw hnot := by
    by_cases hatom : w.IsAtom
    · exact Heap.unchanged_of_isAtom hatom w .refl
    · refine hevolves.right.same hw fun ⟨v, hvw⟩ => ?_
      obtain ⟨rfl, hv⟩ := Renaming.matches_only_cases hvw
      exact hnot (hsame.reaches (hv.resolve_left hatom))

/-- Let the locals have all names of an expression that has neither `this` nor a call of a function
in it, and whose filters are functions of their arguments.  Then it has the same value, error or
lack of an end in any two contexts, over stores that need have nothing in common but what the locals
reach.  So of a context that they do not reach it reads nothing; and it writes nothing of it, as it
writes nothing else that they do not reach. -/
theorem locals_shield_context {e : Expression} {lib : Library σ} {s t : Store σ} {l : ℕ}
    (hsheltered : ∀ x ∈ e.body, x.Sheltered fun name => s.heap.hasMember (.object l) name = true)
    (hfilters : ∀ filter ∈ e.filters, lib.Functional filter.2.behaviour)
    (hsame : s.heap.Unchanged t.heap (.object l)) (n : ℕ) (context context' : Value) :
    Option.Rel (fun x y => ∃ ρ, Shielded s t l x y ρ)
      (runOn (e.eval lib n context (some (.object l))) s)
      (runOn (e.eval lib n context' (some (.object l))) t) := by
  have henv : (e.env n context (some (.object l))).Shares l (e.env n context' (some (.object l))) :=
    ⟨rfl, rfl, rfl, rfl⟩
  have hlib : ∀ name behaviour,
      (e.env n context (some (.object l))).filters.lookup name = some behaviour →
        lib.Functional behaviour := by
    intro name behaviour hlookup
    obtain ⟨filter, hfilter, rfl⟩ := exists_of_lookup hlookup
    exact hfilters filter hfilter
  have hshelters : (Renaming.only (ReflTransGen s.heap.Refers (.object l))).Shelters
      (fun name => s.heap.hasMember (.object l) name = true) l s.heap t.heap :=
    ⟨Renaming.corresponds_only hsame fun _ _ => .tail, ⟨rfl, .refl⟩, fun _ => id⟩
  have hmimics := Expr.mimics_evalStatements
    (fun x hx => ((hsheltered x hx).runs_alike henv hlib).1 .read) hshelters
    (.plain (v := .undefined) rfl)
  rw [Mimics] at hmimics
  change Option.Rel _ (runOn (Expr.evalStatements _ _ _ _) s)
    (runOn (Expr.evalStatements _ _ _ _) t)
  generalize runOn (Expr.evalStatements _ _ _ _) s = x,
    runOn (Expr.evalStatements _ _ _ _) t = y at hmimics
  cases hmimics with
  | none => exact .none
  | some hends =>
    obtain ⟨ρ, hevolves, hagree⟩ := hends
    exact .some ⟨ρ, .of_evolves hsame hevolves hagree⟩

end Expression

/-! ## Locals that are furnished -/

/-- An assignment through names of the locals of which some are missing. -/
def furnish : Expression where
  source := "a.x.y = b = [d | given, $locals]"
  body := [.assign (.member (.place (.member (.place (.name "a")) "x")) "y")
    (.assign (.name "b") (.array [.filter "given" (.place (.name "d")) [], .locals]))]
  filters := [("given", ⟨"given", false⟩)]
  oneTime := false

/-- The locals inherit two of the names, and the context has the names as well. -/
def lodging (x : Value) : Store Unit where
  heap := ⟨#[], #[⟨⟨[("a", .null), ("d", .string "d")]⟩, none⟩, ⟨⟨[("b", .null)]⟩, some 0⟩,
    ⟨⟨[("a", x), ("b", x), ("d", x)]⟩, none⟩], #[]⟩
  host := ()

lemma plainLibrary_functional (behaviour : String) : plainLibrary.Functional behaviour := by
  intro ρ s t args args' hρ hargs
  refine .pure hρ ?_
  cases hargs with
  | nil => exact .plain rfl
  | cons hvw _ => exact hvw

lemma furnish_sheltered (x : Value) : ∀ e ∈ furnish.body,
    e.Sheltered fun name => (lodging x).heap.hasMember (.object 1) name = true := by
  intro e he
  obtain rfl := List.mem_singleton.1 he
  have hname : ∀ name ∈ ["a", "b", "d"],
      (Expr.place (.name name)).Sheltered fun name =>
        (lodging x).heap.hasMember (.object 1) name = true := by
    intro name hname
    refine .name ?_
    simp only [List.mem_cons, List.not_mem_nil, or_false] at hname
    rcases hname with rfl | rfl | rfl <;> cbv
  refine .assign (.member (.member (hname "a" (by decide)) "x") "y")
    (.assign (hname "b" (by decide)) (.array fun e he => ?_))
  simp only [List.mem_cons, List.not_mem_nil, or_false] at he
  rcases he with rfl | rfl
  · exact .filter "given" (hname "d" (by decide)) (List.forall_mem_nil _)
  · exact .locals

/-- The locals reach themselves, what they inherit from, and no other container. -/
lemma lodging_reaches {x v : Value}
    (hv : ReflTransGen (lodging x).heap.Refers (.object 1) v) :
    v = .object 1 ∨ v = .object 0 ∨ v.isContainer = false := by
  induction hv with
  | refl => exact .inl rfl
  | tail _ hstep ih =>
    rcases ih with rfl | rfl | hplain
    · rcases hstep with hheld | ⟨o, p, ho, hp, rfl⟩
      · obtain rfl := List.mem_singleton.1 hheld
        exact .inr (.inr rfl)
      · cases ho
        cases hp
        exact .inr (.inl rfl)
    · rcases hstep with hheld | ⟨o, p, ho, hp, rfl⟩
      · have hmem : _ ∈ [Value.null, .string "d"] := hheld
        simp only [List.mem_cons, List.not_mem_nil, or_false] at hmem
        rcases hmem with rfl | rfl <;> exact .inr (.inr rfl)
      · cases ho
        cases hp
    · exact absurd hstep (Heap.not_refers_of_isAtom (Value.isAtom_of_plain hplain))

lemma lodging_unchanged (x y : Value) :
    (lodging x).heap.Unchanged (lodging y).heap (.object 1) := by
  intro v hv
  rcases lodging_reaches hv with rfl | rfl | hplain
  · exact ⟨_, rfl, rfl⟩
  · exact ⟨_, rfl, rfl⟩
  · exact Heap.unchanged_of_plain hplain v .refl

/-- Whatever the context has under the names of the expression, it yields the array in the end, and
the context is left as it was. -/
theorem furnish_shielded : ∃ x y ρ,
    runOn (furnish.eval plainLibrary 0 (.object 2) (some (.object 1))) (lodging (.bool true)) =
      some (.ok (.array 0), x) ∧
    runOn (furnish.eval plainLibrary 0 (.object 2) (some (.object 1))) (lodging .undefined) =
      some (.ok (.array 0), y) ∧
    Expression.Shielded (lodging (.bool true)) (lodging .undefined) 1 (.ok (.array 0), x)
      (.ok (.array 0), y) ρ ∧
    x.heap.follow (.object 1) ["a", "x", "y"] = .array 0 ∧
    (lodging (.bool true)).heap.SameAt x.heap (.object 2) ∧
    (lodging .undefined).heap.SameAt y.heap (.object 2) := by
  have hfilters : ∀ filter ∈ furnish.filters, plainLibrary.Functional filter.2.behaviour :=
    fun filter _ => plainLibrary_functional filter.2.behaviour
  have hcontext : ∀ z, (lodging z).heap.Has (.object 2) := fun _ => Nat.lt_succ_self 2
  have hunreached : ∀ z, ¬ ReflTransGen (lodging z).heap.Refers (.object 1) (.object 2) := by
    intro z hz
    rcases lodging_reaches hz with h | h | h <;> cases h
  have hshielded := Expression.locals_shield_context (furnish_sheltered (.bool true)) hfilters
    (lodging_unchanged (.bool true) .undefined) 0 (.object 2) (.object 2)
  obtain ⟨x, hx, hfollow⟩ : ∃ x,
      runOn (furnish.eval plainLibrary 0 (.object 2) (some (.object 1))) (lodging (.bool true)) =
        some (.ok (.array 0), x) ∧ x.heap.follow (.object 1) ["a", "x", "y"] = .array 0 := by
    generalize hr : runOn _ _ = r
    cbv at hr
    subst hr
    exact ⟨_, rfl, by cbv⟩
  obtain ⟨y, hy⟩ : ∃ y,
      runOn (furnish.eval plainLibrary 0 (.object 2) (some (.object 1))) (lodging .undefined) =
        some (.ok (.array 0), y) := by
    generalize hr : runOn _ _ = r
    cbv at hr
    subst hr
    exact ⟨_, rfl⟩
  rw [hx, hy] at hshielded
  cases hshielded with
  | some hends =>
    obtain ⟨ρ, hends⟩ := hends
    exact ⟨x, y, ρ, hx, hy, hends, hfollow, hends.left _ (hcontext _) (hunreached _),
      hends.right _ (hcontext _) (hunreached _)⟩

end DataBinding
