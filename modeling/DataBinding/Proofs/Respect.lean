import DataBinding.Expression
import DataBinding.Proofs.Steps
import DataBinding.Proofs.Veils

/-!
# Relations that evaluation respects

`Respected lib S` asks of a relation between stores what the elementary steps of an evaluation need:
related stores read alike but for the reflective members, and they go on to be related when the same
container is made in both, when the same permitted member is written in both, and when the same
function or filter of the host runs in both.  Then all that is put together from these steps runs
alike from related stores, and leads to related stores (`Respected.eval` and its companions).

The computation with the higher limit on chains of calls follows the one with the lower limit.  With
the equality of stores that is the monotonicity in the limit.

The heap is all that evaluation reads and writes by itself.  So of stores that differ in what the
host keeps for itself (`Store.Alike`) it asks only that the functions of the host and the filters
respect the difference (`respected_alike`).
-/

namespace DataBinding

open Compute (Follows runOn)

variable {σ α : Type}

/-- The relation is kept when a property of the object is written in both stores. -/
def Writable (S : Store σ → Store σ → Prop) (o : ℕ) : Prop :=
  ∀ ⦃s s'⦄, S s s' → ∀ key v, S { s with heap := s.heap.setOwn o key v }
    { s' with heap := s'.heap.setOwn o key v }

/-- What evaluation does to stores that are related leads to stores that are related: the functions
of the host and the filters run alike in them, new containers are the same in both, and both are
written to alike, under any name in an object that was made since and else under names that are
permitted. -/
structure Respected (lib : Library σ) (S : Store σ → Store σ → Prop) : Prop where
  veiled : ∀ {s s'}, S s s' → s.heap.Veiled s'.heap
  newArray : ∀ {s s'}, S s s' → ∀ items, S { s with heap := (s.heap.newArray items).2 }
    { s' with heap := (s'.heap.newArray items).2 }
  newObject : ∀ {s s'}, S s s' → S { s with heap := (s.heap.newObject .empty none).2 }
    { s' with heap := (s'.heap.newObject .empty none).2 }
  newFunction : ∀ {s s'}, S s s' → ∀ c, S { s with heap := (s.heap.newFunction c).2 }
    { s' with heap := (s'.heap.newFunction c).2 }
  setOwn : ∀ {s s'}, S s s' → Writable S s.heap.objects.size
  setMember : ∀ {s s'}, S s s' → ∀ base, ∀ key ∉ forbiddenMembers, ∀ v,
    Option.Rel (Agree fun h h' => S { s with heap := h } { s' with heap := h' })
      (s.heap.setMember base key v) (s'.heap.setMember base key v)
  call : ∀ name this args, Follows S (lib.call name this args) (lib.call name this args)
  filter : ∀ behaviour args, Follows S (lib.filter behaviour args) (lib.filter behaviour args)

lemma not_reflective_of_permitted {key : String} (h : key ∉ forbiddenMembers) :
    key ∉ reflectiveMembers :=
  fun hkey => h (forbidden_of_reflective hkey)

namespace Respected

variable {lib : Library σ} {S : Store σ → Store σ → Prop} (hS : Respected lib S) {n n' : ℕ}

include hS

/-! ## The heap -/

lemma reading {f : Heap → α} (hf : ∀ {h k : Heap}, h.Veiled k → f k = f h) :
    Follows S (Store.reading f : Compute (Store σ) α) (Store.reading f) :=
  .read fun _ _ hs => hf (hS.veiled hs)

lemma readingEndless {f : Heap → Option α} (hf : ∀ {h k : Heap}, h.Veiled k → f k = f h) :
    Follows S (Store.readingEndless f : Compute (Store σ) α) (Store.readingEndless f) := by
  refine (hS.reading hf).bind fun x => ?_
  intro s s' r u hs h
  obtain ⟨a, rfl, hend⟩ := Option.map_eq_some_iff.1 h
  cases hend
  exact ⟨s', rfl, hs⟩

lemma newObject_follows : Follows S (Store.making (·.newObject .empty none) : Compute (Store σ) ℕ)
    (Store.making (·.newObject .empty none)) :=
  .alter fun _ _ hs => ⟨(hS.veiled hs).size, hS.newObject hs⟩

lemma changingIf_setMember {base : Value} {key : String} {v : Value}
    (hkey : key ∉ forbiddenMembers) :
    Follows S (Store.changingIf (·.setMember base key v) : Compute (Store σ) Unit)
      (Store.changingIf (·.setMember base key v)) := by
  intro s s' r u hs h
  have hrel := hS.setMember hs base key hkey v
  rw [Store.runOn_changingIf] at h ⊢
  generalize s.heap.setMember base key v = x, s'.heap.setMember base key v = y at hrel h
  cases hrel with
  | none => cases h
  | some hagree =>
    cases hagree with
    | ok hu =>
      cases h
      exact ⟨_, rfl, hu⟩
    | error e =>
      cases h
      exact ⟨s', rfl, hs⟩

/-! ## Calls -/

omit hS in
lemma receiver_follows (operation : Intrinsic) (this : Value) :
    Follows S (receiver operation this : Compute (Store σ) Callable) (receiver operation this) := by
  cases this with
  | function f => exact .pure f
  | _ => exact .throw _

lemma spread_follows (args : List Value) :
    Follows S (spread args : Compute (Store σ) (List Value)) (spread args) := by
  unfold spread
  split
  · exact hS.reading fun hk => by rw [hk.items]
  · exact .pure []

lemma invoke (hle : n ≤ n') (f : Callable) (this : Value) (args : List Value) :
    Follows S (lib.invoke n f this args) (lib.invoke n' f this args) := by
  induction n generalizing n' f this args with
  | zero => exact .endless
  | succ n ih =>
    obtain ⟨m, rfl⟩ := Nat.exists_eq_add_of_le' (Nat.lt_of_lt_of_le (Nat.succ_pos n) hle)
    have hnm : n ≤ m := Nat.le_of_succ_le_succ hle
    cases f with
    | made f =>
      simp only [Library.invoke]
      refine (hS.reading fun hk => hk.closure? f).bind fun closure => ?_
      rcases closure with _ | _ | _
      · exact .pure _
      · exact hS.call _ _ _
      · exact ih hnm _ _ _
    | intrinsic operation =>
      cases operation with
      | call => exact (receiver_follows .call this).bind fun target => ih hnm _ _ _
      | apply =>
        exact (receiver_follows .apply this).bind fun target =>
          (hS.spread_follows args).bind fun _ => ih hnm _ _ _
      | bind =>
        refine (receiver_follows .bind this).bind fun target =>
          (Follows.alter fun s s' hs => ?_).bind fun _ => .pure _
        have hk := hS.veiled hs
        dsimp only
        rw [hk.functionName]
        exact ⟨by simp only [Heap.newFunction, hk.closures], hS.newFunction hs _⟩
      | functionConstructor => exact .throw _
      | objectConstructor =>
        simp only [Library.invoke]
        split
        · split
          · exact .pure _
          · exact hS.newObject_follows.bind fun _ => .pure _
        · exact hS.newObject_follows.bind fun _ => .pure _

end Respected

/-- The same surroundings with another bound on chains of calls. -/
abbrev Env.withCallLimit (env : Env) (n : ℕ) : Env := { env with callLimit := n }

/-! ## Evaluation -/

namespace Respected

variable {lib : Library σ} {S : Store σ → Store σ → Prop} (hS : Respected lib S) (env : Env)
  {n n' : ℕ}

include hS

lemma guardValue (v : Value) :
    Follows S (env.guardValue v : Compute (Store σ) Unit) (env.guardValue v) := by
  refine (hS.reading fun hk => hk.forbidden? v).bind fun what => ?_
  cases what with
  | some what => exact .throw _
  | none => exact .pure ()

omit hS in
lemma guardMember (key : String) :
    Follows S (env.guardMember key : Compute (Store σ) Unit) (env.guardMember key) := by
  unfold Env.guardMember
  split
  · exact .throw _
  · exact .pure ()

omit hS in
lemma guardCallee (v : Value) :
    Follows S (env.guardCallee v : Compute (Store σ) Unit) (env.guardCallee v) := by
  unfold Env.guardCallee
  split
  · exact .throw _
  · exact .pure ()

lemma locateName (name : String) :
    Follows S (env.locateName name : Compute (Store σ) Location) (env.locateName name) := by
  refine (guardMember env name).bind_of fun _ _ _ _ _ hrun => ?_
  have hname := not_reflective_of_permitted (Env.permitted_of_runOn_guardMember hrun)
  refine (hS.reading fun hk => ?_).bind fun base => ?_
  · unfold Env.holder
    split
    · rw [hk.hasMember hname]
    · rfl
  · exact (hS.reading fun hk => hk.getMember hname base).bind fun value =>
      (hS.guardValue env value).bind fun _ => .pure _

lemma locateMember (access : Access) (base : Value) (key : String) :
    Follows S (env.locateMember access base key : Compute (Store σ) Location)
      (env.locateMember access base key) := by
  rw [Env.locateMember_eq]
  refine (guardMember env key).bind_of fun _ _ _ _ _ hrun => Follows.bind ?_ fun _ => ?_
  · split
    · exact hS.guardValue env base
    · exact .pure ()
  · have hkey := not_reflective_of_permitted (Env.permitted_of_runOn_guardMember hrun)
    exact (hS.reading fun hk => by rw [hk.getMember hkey]).bind fun value =>
      (hS.guardValue env value).bind fun _ => .pure _

lemma intermediate {loc : Location} (hkey : loc.key ∉ forbiddenMembers) :
    Follows S (loc.intermediate : Compute (Store σ) Value) loc.intermediate := by
  unfold Location.intermediate
  split
  · exact hS.newObject_follows.bind fun o => (hS.changingIf_setMember hkey).bind fun _ => .pure _
  · exact .pure _

lemma store {loc : Location} (hkey : loc.key ∉ forbiddenMembers) (v : Value) :
    Follows S (env.store loc v : Compute (Store σ) Value) (env.store loc v) :=
  (hS.guardValue env v).bind fun _ => (hS.changingIf_setMember hkey).bind fun _ => .pure _

lemma applyFilter (name : String) (args : List Value) :
    Follows S (env.applyFilter lib name args) (env.applyFilter lib name args) := by
  unfold Env.applyFilter
  split
  · exact hS.filter _ _
  · exact .throw _

lemma callValue (hle : n ≤ n') (this callee : Value) {args args' : Compute (Store σ) (List Value)}
    (hargs : Follows S args args') :
    Follows S ((env.withCallLimit n).call lib this callee args)
      ((env.withCallLimit n').call lib this callee args') := by
  unfold Env.call
  split
  · exact .pure _
  · refine (hS.guardValue env this).bind fun _ => (guardCallee env callee).bind fun _ =>
      hargs.bind fun args => ?_
    cases callee with
    | function f =>
      exact (hS.invoke hle f this args).bind fun result => (hS.guardValue env result).bind fun _ =>
        .pure _
    | _ => exact .throw _

end Respected

namespace Respected

variable {lib : Library σ} {S : Store σ → Store σ → Prop} (env : Env) {n n' : ℕ}

mutual

/-- The value of an expression. -/
lemma eval (hS : Respected lib S) (hle : n ≤ n') (access : Access) : (e : Expr) →
    Follows S (Expr.eval lib (env.withCallLimit n) access e)
      (Expr.eval lib (env.withCallLimit n') access e)
  | .literal _ | .this | .locals => .pure _
  | .array items => (evalList hS hle items).bind fun values =>
    (Follows.alter fun _ _ hs => ⟨by simp only [Heap.newArray, (hS.veiled hs).arrays],
      hS.newArray hs _⟩).bind fun _ => .pure _
  | .object properties =>
    hS.newObject_follows.bind_of fun _ s s' _ hs hrun => by
      cases hrun
      exact (evalProperties hS hle (hS.setOwn hs) properties).bind fun _ => .pure _
  | .place p => (locate hS hle access p).bind_of fun loc _ _ _ _ hrun => by
      cases access with
      | read => exact .pure _
      | create => exact hS.intermediate (Expr.located_of_locate hrun).permitted
  | .call callee args => by
    cases callee with
    | place p =>
      exact (locate hS hle .read p).bind fun _ => hS.callValue env hle _ _ (evalArgs hS hle args)
    | _ => exact (eval hS hle .read _).bind fun _ => hS.callValue env hle _ _ (evalArgs hS hle args)
  | .filter name input args =>
    (eval hS hle .read input).bind fun _ => (evalList hS hle args).bind fun _ =>
      hS.applyFilter env name _
  | .assign target value =>
    (locate hS hle .create target).bind_of fun _ _ _ _ _ hrun =>
      (eval hS hle .read value).bind fun v =>
        hS.store env (Expr.located_of_locate hrun).permitted v
  | .unary op operand => (eval hS hle .read operand).bind fun v =>
    hS.readingEndless fun hk => hk.unary op v
  | .binary op left right => (eval hS hle .read left).bind fun v =>
    (eval hS hle .read right).bind fun w => hS.readingEndless fun hk => hk.binary op v w
  | .logical .and left right => by
    refine (eval hS hle .read left).bind fun v => ?_
    split
    · exact eval hS hle .read right
    · exact .pure _
  | .logical .or left right => by
    refine (eval hS hle .read left).bind fun v => ?_
    split
    · exact .pure _
    · exact eval hS hle .read right
  | .conditional test consequent alternate => by
    refine (eval hS hle .read test).bind fun v => ?_
    split
    · exact eval hS hle .read consequent
    · exact eval hS hle .read alternate

/-- The location that a place denotes. -/
lemma locate (hS : Respected lib S) (hle : n ≤ n') (access : Access) : (p : Place) →
    Follows S (Expr.locate lib (env.withCallLimit n) access p)
      (Expr.locate lib (env.withCallLimit n') access p)
  | .name name => hS.locateName env name
  | .member base key => (eval hS hle access base).bind fun v => hS.locateMember env access v key
  | .element base key =>
    (eval hS hle access base).bind fun v => (eval hS hle .read key).bind fun k =>
      (hS.readingEndless fun hk => hk.text? k).bind fun key => hS.locateMember env access v key

lemma evalList (hS : Respected lib S) (hle : n ≤ n') : (es : List Expr) →
    Follows S (Expr.evalList lib (env.withCallLimit n) es)
      (Expr.evalList lib (env.withCallLimit n') es)
  | [] => .pure _
  | e :: rest => (eval hS hle .read e).bind fun _ => (evalList hS hle rest).bind fun _ => .pure _

lemma evalArgs (hS : Respected lib S) (hle : n ≤ n') : (es : List Expr) →
    Follows S (Expr.evalArgs lib (env.withCallLimit n) es)
      (Expr.evalArgs lib (env.withCallLimit n') es)
  | [] => .pure _
  | e :: rest => (eval hS hle .read e).bind fun v => (hS.guardValue env v).bind fun _ =>
    (evalArgs hS hle rest).bind fun _ => .pure _

lemma evalProperties (hS : Respected lib S) (hle : n ≤ n') {o : ℕ} (ho : Writable S o) :
    (ps : List (PropertyKey × Expr)) →
    Follows S (Expr.evalProperties lib (env.withCallLimit n) o ps)
      (Expr.evalProperties lib (env.withCallLimit n') o ps)
  | [] => .pure _
  | (key, e) :: rest => (eval hS hle .read e).bind fun v =>
    (Follows.change fun _ _ hs => ho hs key.text v).bind fun _ => evalProperties hS hle ho rest

end

lemma evalStatements (hS : Respected lib S) (hle : n ≤ n') (last : Value) (es : List Expr) :
    Follows S (Expr.evalStatements lib (env.withCallLimit n) last es)
      (Expr.evalStatements lib (env.withCallLimit n') last es) := by
  induction es generalizing last with
  | nil => exact .pure _
  | cons e es ih => exact (hS.eval env hle .read e).bind fun v => ih v

end Respected

/-! ## Stores that differ in what the host keeps for itself -/

/-- The stores differ at most in what the host keeps for itself, and there as `Q` says. -/
def Store.Alike (Q : σ → σ → Prop) (s s' : Store σ) : Prop := s'.heap = s.heap ∧ Q s.host s'.host

lemma Store.alike_eq : Store.Alike (Eq : σ → σ → Prop) = Eq := by
  funext ⟨heap, host⟩ ⟨heap', host'⟩
  simp only [Store.Alike, Store.mk.injEq, eq_comm]

/-- Evaluation respects what the functions of the host and the filters respect. -/
lemma respected_alike {lib : Library σ} {Q : σ → σ → Prop}
    (hcall : ∀ name this args,
      Follows (Store.Alike Q) (lib.call name this args) (lib.call name this args))
    (hfilter : ∀ behaviour args,
      Follows (Store.Alike Q) (lib.filter behaviour args) (lib.filter behaviour args)) :
    Respected lib (Store.Alike Q) where
  veiled h := h.1 ▸ .refl _
  newArray h _ := ⟨by rw [h.1], h.2⟩
  newObject h := ⟨by rw [h.1], h.2⟩
  newFunction h _ := ⟨by rw [h.1], h.2⟩
  setOwn _ _ _ h _ _ := ⟨by rw [h.1], h.2⟩
  setMember := by
    rintro s s' ⟨hheap, hhost⟩ base key - v
    rw [hheap]
    cases s.heap.setMember base key v with
    | none => exact .none
    | some x =>
      cases x with
      | ok h => exact .some (.ok ⟨rfl, hhost⟩)
      | error e => exact .some (.error e)
  call := hcall
  filter := hfilter

/-- Evaluation does the same in the same store. -/
lemma respected_eq (lib : Library σ) : Respected lib Eq := by
  rw [← Store.alike_eq]
  refine respected_alike (fun _ _ _ => ?_) fun _ _ => ?_
  · rw [Store.alike_eq]
    exact .of_eq _
  · rw [Store.alike_eq]
    exact .of_eq _

end DataBinding
