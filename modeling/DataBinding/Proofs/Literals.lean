import DataBinding.Proofs.Freshness
import DataBinding.Proofs.Inputs
import DataBinding.Proofs.Steps

/-!
# Composed expressions

A composed expression is put together from literals and from paths such as `a` and `b.c`.  As long
as the data stay as they are it has a value with the same frozen form whenever it is evaluated, even
if it makes fresh containers (`Expr.Composed.again`), and a path has the very same value
(`Expr.IsPath.again`).  What is watched of a composed expression are paths
(`Expr.Composed.isPath_of_mem_watched`).
-/

namespace DataBinding

open Compute (runOn)
open Relation (ReflTransGen)

variable {σ : Type}

namespace Expr

/-! ## Composed expressions -/

/-- A name, or a member of one: `a`, `a.b`, `a.b.c`. -/
inductive IsPath : Expr → Prop
  | name (s : String) : IsPath (.place (.name s))
  | member {base : Expr} (hbase : IsPath base) (key : String) : IsPath (.place (.member base key))

/-- The expression is composed of literals and paths by unary and binary operators and by literals
of arrays and objects. -/
inductive Composed : Expr → Prop
  | literal (l : Literal) : Composed (.literal l)
  | path {e : Expr} (he : e.IsPath) : Composed e
  | array {items : List Expr} (hitems : ∀ e ∈ items, Composed e) : Composed (.array items)
  | object {properties : List (PropertyKey × Expr)}
    (hproperties : ∀ x ∈ properties, Composed x.2) : Composed (.object properties)
  | unary (op : UnaryOp) {operand : Expr} (hoperand : Composed operand) :
    Composed (.unary op operand)
  | binary (op : BinaryOp) {left right : Expr} (hleft : Composed left) (hright : Composed right) :
    Composed (.binary op left right)

variable {stateful : String → Bool} {e p : Expr}

lemma IsPath.madeOf (he : e.IsPath) : e.MadeOf IsName := by
  induction he with
  | name s => exact .part ⟨s, rfl⟩
  | member _ key ih => exact .member ih key

lemma Composed.madeOf (he : e.Composed) : e.MadeOf IsName := by
  induction he with
  | literal l => exact .literal l
  | path he => exact he.madeOf
  | array _ ih => exact .array ih
  | object _ ih => exact .object ih
  | unary op _ ih => exact .unary op ih
  | binary op _ _ ihleft ihright => exact .binary op ihleft ihright

lemma IsPath.watch_eq (he : e.IsPath) : (e.watch stateful) = ⟨false, [e]⟩ := by
  induction he with
  | name s => rfl
  | member _ key ih => simp [watch, placeConstant, ih, Watch.itself]

/-- What is watched of a composed expression are paths. -/
lemma Composed.isPath_of_mem_watched (he : e.Composed) (hp : p ∈ (e.watch stateful).watched) :
    p.IsPath := by
  induction he with
  | literal l => cases hp
  | path he =>
    rw [he.watch_eq] at hp
    obtain rfl := List.mem_singleton.1 hp
    exact he
  | array _ ih =>
    rw [watch, watchList_eq, mem_watched_union_iff] at hp
    obtain ⟨w, hw, -, hp⟩ := hp
    obtain ⟨e, he, rfl⟩ := List.mem_map.1 hw
    exact ih e he hp
  | object _ ih =>
    rw [watch, watchProperties_eq, mem_watched_union_iff] at hp
    obtain ⟨w, hw, -, hp⟩ := hp
    obtain ⟨x, hx, rfl⟩ := List.mem_map.1 hw
    exact ih x hx hp
  | unary op _ ih => exact ih hp
  | binary op _ _ ihleft ihright =>
    rcases List.mem_append.1 hp with hp | hp
    · exact ihleft hp
    · exact ihright hp

lemma exists_mem_watched_union {ws : List (Watch Expr)}
    (hws : ∀ w ∈ ws, w.constant = false → ∃ p, p ∈ w.watched)
    (hconstant : (Watch.union ws).constant = false) : ∃ p, p ∈ (Watch.union ws).watched := by
  have hsome : ¬ ∀ w ∈ ws, w.constant = true := by
    rw [← constant_union_iff, hconstant]
    exact Bool.false_ne_true
  push Not at hsome
  obtain ⟨w, hw, hwc⟩ := hsome
  have hwc : w.constant = false := by simpa using hwc
  obtain ⟨p, hp⟩ := hws w hw hwc
  exact ⟨p, mem_watched_union_iff.2 ⟨w, hw, hwc, hp⟩⟩

/-- Of a composed expression that is not constant something is watched. -/
lemma Composed.exists_mem_watched (he : e.Composed)
    (hconstant : (e.watch stateful).constant = false) : ∃ p, p ∈ (e.watch stateful).watched := by
  induction he with
  | literal l => cases hconstant
  | path he =>
    rw [he.watch_eq]
    exact ⟨_, .head _⟩
  | array _ ih =>
    rw [watch, watchList_eq] at hconstant ⊢
    refine exists_mem_watched_union (fun w hw => ?_) hconstant
    obtain ⟨e, he, rfl⟩ := List.mem_map.1 hw
    exact ih e he
  | object _ ih =>
    rw [watch, watchProperties_eq] at hconstant ⊢
    refine exists_mem_watched_union (fun w hw => ?_) hconstant
    obtain ⟨x, hx, rfl⟩ := List.mem_map.1 hw
    exact ih x hx
  | unary op _ ih => exact ih hconstant
  | binary op _ _ ihleft ihright =>
    simp only [watch, Watch.both, Bool.and_eq_false_iff] at hconstant ⊢
    rcases hconstant with h | h
    · obtain ⟨p, hp⟩ := ihleft h
      exact ⟨p, List.mem_append_left _ hp⟩
    · obtain ⟨p, hp⟩ := ihright h
      exact ⟨p, List.mem_append_right _ hp⟩

end Expr

/-! ## Data that stay as they are -/

namespace Heap

variable {b h k : Heap} {v w : Value}

lemma SameAt.trans_left (hh : b.SameAt h v) (hk : b.SameAt k v) : h.SameAt k v := by
  cases v with
  | array | object =>
    obtain ⟨x, hx, hxh⟩ := hh
    obtain ⟨y, hy, hyk⟩ := hk
    obtain rfl := Option.some.inj (hx.symm.trans hy)
    exact ⟨x, hxh, hyk⟩
  | function f =>
    cases f with
    | intrinsic => trivial
    | made =>
      obtain ⟨x, hx, hxh⟩ := hh
      obtain ⟨y, hy, hyk⟩ := hk
      obtain rfl := Option.some.inj (hx.symm.trans hy)
      exact ⟨x, hxh, hyk⟩
  | _ => trivial

/-- Two heaps that keep what there was before correspond in what could be reached from a value. -/
lemma Complete.corresponds (hv : b.Complete v) (hh : b.Keeps h) (hk : b.Keeps k) :
    (Renaming.only (ReflTransGen b.Refers v)).Corresponds h k := by
  refine Renaming.corresponds_only (fun w hw => ?_) fun w x hw hx => ?_
  · exact (hh.sameAt (hv w hw)).trans_left (hk.sameAt (hv w hw))
  · exact hw.tail ((hh.sameAt (hv w hw)).refers hx)

/-- What can be reached from it now could be reached before. -/
lemma Complete.reaches (hv : b.Complete v) (hh : b.Keeps h) (hw : ReflTransGen h.Refers v w) :
    ReflTransGen b.Refers v w := by
  induction hw with
  | refl => exact .refl
  | tail _ hstep ih => exact ih.tail ((hh.sameAt (hv _ ih)).refers hstep)

end Heap

namespace Expr

variable {lib : Library σ} {env : Env} {b : Heap} {s s' t : Store σ} {e : Expr} {v : Value}

/-- A composed expression runs alike in two stores that keep the data. -/
lemma Composed.mirrors (he : e.Composed) (lib : Library σ) (hfilters : env.filters = [])
    (hlocals : env.locals = none) (b h k : Heap) :
    Mirrors h k (.only (ReflTransGen b.Refers env.context)) Renaming.Matches
      (e.eval lib env .read) (e.eval lib env .read) := by
  refine mirrors_eval rfl rfl (fun name behaviour hlookup => ?_) (fun p hp => ?_) he.madeOf
  · rw [hfilters] at hlookup
    cases hlookup
  · obtain ⟨name, rfl⟩ := hp
    refine mirrors_name rfl (Renaming.matches_only .refl) ?_ name
    rw [hlocals]
    exact .none

/-- Evaluated again, a composed expression has a value with the same frozen form, and nothing that
was there is changed. -/
lemma Composed.again (he : e.Composed) (hfilters : env.filters = []) (hlocals : env.locals = none)
    (hdata : b.Complete env.context) (hs : b.Keeps s.heap) (hs' : b.Keeps s'.heap)
    (hrun : runOn (e.eval lib env .read) s = some (.ok v, t)) :
    ∃ v' t', runOn (e.eval lib env .read) s' = some (.ok v', t') ∧ s'.heap.Keeps t'.heap ∧
      t'.heap.freeze? v' = t.heap.freeze? v := by
  have hmirrors := he.mirrors lib hfilters hlocals b s.heap s'.heap
  obtain ⟨ρ, r', t', -, hrelates, hrun', hagree⟩ :=
    hmirrors le_rfl ⟨hdata.corresponds hs hs', .refl _, .refl _⟩ hrun
  cases hagree with
  | ok hvw => exact ⟨_, t', hrun', hrelates.right, (hrelates.corresponds.freeze?_eq hvw).symm⟩

lemma Composed.keeps (he : e.Composed) (hfilters : env.filters = []) (hlocals : env.locals = none)
    (hdata : b.Complete env.context) (hs : b.Keeps s.heap)
    (hrun : runOn (e.eval lib env .read) s = some (.ok v, t)) : s.heap.Keeps t.heap := by
  obtain ⟨v', t', hrun', hkeeps, -⟩ := he.again hfilters hlocals hdata hs hs hrun
  cases hrun.symm.trans hrun'
  exact hkeeps

/-! ## Paths -/

/-- What is located by a name is a member of the context, and nothing is changed. -/
lemma runOn_locateName_cases (hlocals : env.locals = none) (name : String) (s : Store σ) :
    ∃ r, runOn (env.locateName name : Compute (Store σ) Location) s = some (r, s) ∧
      ∀ loc, r = .ok loc → loc.value = s.heap.getMember env.context name := by
  have hholder : env.holder s.heap name = env.context := by rw [Env.holder, hlocals]
  have hguard := env.runOn_guardMember name s
  unfold Env.locateName
  by_cases hkey : name ∈ forbiddenMembers
  · rw [if_pos hkey] at hguard
    exact ⟨_, Compute.runOn_bind_of_error hguard, fun _ h => by cases h⟩
  rw [if_neg hkey] at hguard
  rw [Compute.runOn_bind_of_ok hguard, Compute.runOn_bind_of_ok (Store.runOn_reading _ s),
    Compute.runOn_bind_of_ok (Store.runOn_reading _ s), hholder]
  have hvalue := env.runOn_guardValue (s.heap.getMember env.context name) s
  cases hv : s.heap.forbidden? (s.heap.getMember env.context name) with
  | some what =>
    rw [hv] at hvalue
    exact ⟨_, Compute.runOn_bind_of_error hvalue, fun _ h => by cases h⟩
  | none =>
    rw [hv] at hvalue
    refine ⟨_, Compute.runOn_bind_of_ok hvalue, fun loc hloc => ?_⟩
    cases hloc
    rfl

/-- What is located in a value is a member of it, or undefined, and nothing is changed. -/
lemma runOn_locateMember_cases (env : Env) (base : Value) (key : String) (s : Store σ) :
    ∃ r, runOn (env.locateMember .read base key : Compute (Store σ) Location) s = some (r, s) ∧
      ∀ loc, r = .ok loc → loc.value = .undefined ∨ loc.value = s.heap.getMember base key := by
  have hguard := env.runOn_guardMember key s
  rw [Env.locateMember_eq]
  simp only [reduceCtorEq, if_false, pure_bind]
  by_cases hkey : key ∈ forbiddenMembers
  · rw [if_pos hkey] at hguard
    exact ⟨_, Compute.runOn_bind_of_error hguard, fun _ h => by cases h⟩
  rw [if_neg hkey] at hguard
  rw [Compute.runOn_bind_of_ok hguard, Compute.runOn_bind_of_ok (Store.runOn_reading _ s)]
  have hvalue := env.runOn_guardValue
    (if base.isNullish then .undefined else s.heap.getMember base key) s
  cases hv : s.heap.forbidden?
      (if base.isNullish then .undefined else s.heap.getMember base key) with
  | some what =>
    rw [hv] at hvalue
    exact ⟨_, Compute.runOn_bind_of_error hvalue, fun _ h => by cases h⟩
  | none =>
    rw [hv] at hvalue
    refine ⟨_, Compute.runOn_bind_of_ok hvalue, fun loc hloc => ?_⟩
    cases hloc
    dsimp only
    split
    · exact .inl rfl
    · exact .inr rfl

/-- To evaluate a path changes nothing, and its value is part of the data. -/
lemma IsPath.reads (he : e.IsPath) (lib : Library σ) (hlocals : env.locals = none) (s : Store σ) :
    ∃ r, runOn (e.eval lib env .read) s = some (r, s) ∧
      ∀ v, r = .ok v → v.IsAtom ∨ ReflTransGen s.heap.Refers env.context v := by
  have hmember (base : Value) (key : String)
      (hbase : base.IsAtom ∨ ReflTransGen s.heap.Refers env.context base) :
      (s.heap.getMember base key).IsAtom ∨
        ReflTransGen s.heap.Refers env.context (s.heap.getMember base key) := by
    rcases s.heap.reaches_getMember base key with hatom | hreach
    · exact .inl hatom
    · rcases hbase with hbase | hbase
      · rw [Heap.eq_of_reaches_of_isAtom hbase hreach]
        exact .inl hbase
      · exact .inr (hbase.trans hreach)
  induction he with
  | name name =>
    obtain ⟨r, hrun, hr⟩ := runOn_locateName_cases hlocals name s
    simp only [eval, locate]
    cases r with
    | error error => exact ⟨_, Compute.runOn_bind_of_error hrun, fun _ h => by cases h⟩
    | ok loc =>
      refine ⟨.ok loc.value, Compute.runOn_bind_of_ok hrun, fun v hv => ?_⟩
      cases hv
      rw [hr loc rfl]
      exact hmember _ _ (.inr .refl)
  | @member base _ key ih =>
    obtain ⟨r, hrun, hr⟩ := ih
    simp only [eval, locate, bind_assoc]
    cases r with
    | error error => exact ⟨_, Compute.runOn_bind_of_error hrun, fun _ h => by cases h⟩
    | ok w =>
      obtain ⟨r', hrun', hr'⟩ := runOn_locateMember_cases env w key s
      rw [Compute.runOn_bind_of_ok hrun]
      cases r' with
      | error error => exact ⟨_, Compute.runOn_bind_of_error hrun', fun _ h => by cases h⟩
      | ok loc =>
        refine ⟨.ok loc.value, Compute.runOn_bind_of_ok hrun', fun v hv => ?_⟩
        cases hv
        rcases hr' loc rfl with hloc | hloc
        · rw [hloc]
          exact .inl trivial
        · rw [hloc]
          exact hmember w key (hr w rfl)

/-- A path has the same value, or the same error, in all stores that keep the data. -/
lemma IsPath.again (he : e.IsPath) (hfilters : env.filters = []) (hlocals : env.locals = none)
    (hdata : b.Complete env.context) (hs : b.Keeps s.heap) (hs' : b.Keeps s'.heap)
    {r : Except Error Value} (hrun : runOn (e.eval lib env .read) s = some (r, t)) :
    runOn (e.eval lib env .read) s' = some (r, s') := by
  obtain ⟨r₀, hreads, hr⟩ := he.reads lib hlocals s
  cases hrun.symm.trans hreads
  have hmirrors := (Composed.path he).mirrors lib hfilters hlocals b s.heap s'.heap
  obtain ⟨ρ, r', t', hle, hrelates, hrun', hagree⟩ :=
    hmirrors le_rfl ⟨hdata.corresponds hs hs', .refl _, .refl _⟩ hrun
  obtain ⟨r₁, hreads', -⟩ := he.reads lib hlocals s'
  cases hrun'.symm.trans hreads'
  cases hagree with
  | error => exact hrun'
  | @ok v w hvw =>
    obtain rfl : v = w := by
      rcases hr v rfl with hatom | hreach
      · cases hvw with
        | plain | intrinsic => rfl
        | array | object | made => cases hatom
      · exact Renaming.eq_of_matches hrelates.corresponds hle (hdata.reaches hs hreach) hvw
    exact hrun'

end Expr

end DataBinding
