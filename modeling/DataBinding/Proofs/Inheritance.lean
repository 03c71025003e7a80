import DataBinding.Proofs.Attachment
import DataBinding.Proofs.NodeEvaluation
import DataBinding.Proofs.Simulation
import DataBinding.Proofs.Steps

/-!
# Inherited properties

A scope inherits from the scope that it was asked of, which need not be its parent, unless it is
isolated.  What scopes were made and which properties were written and erased is a history
(`ScopeHistory`).  It tells the chain of scopes that a scope inherits from and the own properties of
each of them, and the tree that it leads to reads accordingly: the value of a property is that of
its nearest owner on the chain (`Host.get_eq_nearest`).

To write a property, directly or by an assignment to a name, changes this one property of one scope.
-/

namespace DataBinding

open Compute (runOn)

variable {κ σ : Type} {n : ℕ}

/-! ## Histories -/

/-- What was done to the scopes of a tree, of which there are `n` now: a scope was asked for a child
under some parent, or an own property of a scope was written or erased. -/
inductive ScopeHistory : ℕ → Type
  | planted : ScopeHistory 1
  | newChild {n : ℕ} (h : ScopeHistory n) (s : Fin n) (isolated : Bool) (parent : Fin n) :
    ScopeHistory (n + 1)
  | write {n : ℕ} (h : ScopeHistory n) (s : Fin n) (key : String) (v : Value) : ScopeHistory n
  | erase {n : ℕ} (h : ScopeHistory n) (s : Fin n) (key : String) : ScopeHistory n

/-- Writes an own property of a scope. -/
def Program.writeOwn (s : ScopeId) (key : String) (v : Value) : Program κ σ Unit := do
  let o ← look (·.data s)
  compute (Store.changing (·.setOwn o key v))

/-- Erases an own property of a scope. -/
def Program.eraseOwn (s : ScopeId) (key : String) : Program κ σ Unit := do
  let o ← look (·.data s)
  compute (Store.changing fun h => h.setRecord o ((h.record o).erase key))

namespace ScopeHistory

/-- The program that does all that. -/
def program : {n : ℕ} → ScopeHistory n → Program κ σ Unit
  | _, .planted => pure ()
  | _, .newChild h s isolated parent => do
    h.program
    discard <| Program.request (.newChild s isolated parent)
  | _, .write h s key v => do
    h.program
    Program.writeOwn s key v
  | _, .erase h s key => do
    h.program
    Program.eraseOwn s key

/-- The scope and those that it inherits from, the nearest first.  An isolated scope inherits from
none. -/
def chain : {n : ℕ} → ScopeHistory n → ScopeId → List ScopeId
  | _, .planted => fun s => [s]
  | _, @newChild n h s isolated _ => fun c =>
    if c = n then n :: (if isolated then [] else h.chain s) else h.chain c
  | _, .write h .. => h.chain
  | _, .erase h .. => h.chain

/-- The own properties of the scopes. -/
def own : {n : ℕ} → ScopeHistory n → ScopeId → String → Option Value
  | _, .planted => fun _ _ => none
  | _, @newChild n h .. => fun c key => if c = n then none else h.own c key
  | _, .write h s key v => fun c k => if c = s ∧ k = key then some v else h.own c k
  | _, .erase h s key => fun c k => if c = s ∧ k = key then none else h.own c k

section NewChild

variable (h : ScopeHistory n) (s : Fin n) (isolated : Bool) (parent : Fin n) {c : ScopeId}

lemma chain_newChild_self : (h.newChild s isolated parent).chain n =
    n :: if isolated then [] else h.chain s :=
  if_pos rfl

lemma chain_newChild_of_ne (hc : c ≠ n) : (h.newChild s isolated parent).chain c = h.chain c :=
  if_neg hc

lemma own_newChild_self (key : String) : (h.newChild s isolated parent).own n key = none :=
  if_pos rfl

lemma own_newChild_of_ne (hc : c ≠ n) (key : String) :
    (h.newChild s isolated parent).own c key = h.own c key :=
  if_neg hc

end NewChild

/-- The value that the nearest owner on the chain of a scope has for a name, if there is one. -/
def nearest? (h : ScopeHistory n) (s : ScopeId) (key : String) : Option Value :=
  (h.chain s).findSome? fun c => h.own c key

/-- A chain begins with its scope. -/
lemma exists_chain_eq (h : ScopeHistory n) (s : ScopeId) : ∃ rest, h.chain s = s :: rest := by
  induction h with
  | planted => exact ⟨[], rfl⟩
  | @newChild n h q isolated parent ih =>
    by_cases hs : s = n
    · subst hs
      exact ⟨_, chain_newChild_self h q isolated parent⟩
    · rw [chain_newChild_of_ne _ _ _ _ hs]
      exact ih
  | write _ _ _ _ ih => exact ih
  | erase _ _ _ ih => exact ih

/-- A chain goes through scopes that there are. -/
lemma lt_of_mem_chain (h : ScopeHistory n) {s c : ScopeId} (hs : s < n) (hc : c ∈ h.chain s) :
    c < n := by
  induction h generalizing s with
  | planted => exact (List.mem_singleton.1 hc).trans_lt hs
  | @newChild n h q isolated parent ih =>
    refine Nat.lt_succ_of_le ?_
    rcases Nat.lt_succ_iff_lt_or_eq.1 hs with hs | rfl
    · rw [chain_newChild_of_ne _ _ _ _ hs.ne] at hc
      exact (ih hs hc).le
    · rw [chain_newChild_self] at hc
      rcases List.mem_cons.1 hc with rfl | hc
      · exact le_rfl
      · cases isolated with
        | true => cases hc
        | false => exact (ih q.isLt hc).le
  | write _ _ _ _ ih => exact ih hs hc
  | erase _ _ _ ih => exact ih hs hc

end ScopeHistory

/-! ## Chains of prototypes -/

namespace Tree

variable {t u : Tree κ σ} {s p : ScopeId} {l : List ScopeId}

/-- The own property of a scope. -/
def own (t : Tree κ σ) (s : ScopeId) (key : String) : Option Value :=
  (t.store.heap.record (t.data s)).get? key

/-- The objects of these scopes are each other's prototypes, from the first to the last. -/
inductive Inherits (t : Tree κ σ) : List ScopeId → Prop
  | last {s : ScopeId} (hproto : t.store.heap.proto (t.data s) = none) : Inherits t [s]
  | cons {s p : ScopeId} {rest : List ScopeId}
    (hproto : t.store.heap.proto (t.data s) = some (t.data p)) (hlt : t.data p < t.data s)
    (hrest : Inherits t (p :: rest)) : Inherits t (s :: p :: rest)

/-- A name is found where the nearest scope of the chain has it. -/
lemma Inherits.find?_eq {rest : List ScopeId} (h : t.Inherits (s :: rest)) (key : String) :
    t.store.heap.find? key (t.data s) = (s :: rest).findSome? fun c => t.own c key := by
  generalize hl : s :: rest = l at h
  induction h generalizing s rest with
  | @last q hproto =>
    cases hl
    rw [List.findSome?_cons, List.findSome?_nil]
    cases hown : t.own q key with
    | some v => exact Heap.find?_of_own hown
    | none => exact Heap.find?_of_root hown hproto
  | @cons q p rest hproto hlt _ ih =>
    cases hl
    rw [List.findSome?_cons]
    cases hown : t.own q key with
    | some v => exact Heap.find?_of_own hown
    | none => exact (Heap.find?_of_proto hown hproto hlt).trans (ih rfl)

/-- What the objects are and inherit from is all that counts. -/
lemma Inherits.of_same (h : t.Inherits l)
    (hsame : ∀ c ∈ l, u.data c = t.data c ∧
      u.store.heap.proto (t.data c) = t.store.heap.proto (t.data c)) : u.Inherits l := by
  induction h with
  | @last s hproto =>
    obtain ⟨hdata, hkept⟩ := hsame s (.head _)
    exact .last (by rw [hdata, hkept, hproto])
  | @cons s p rest hproto hlt _ ih =>
    obtain ⟨hdata, hkept⟩ := hsame s (.head _)
    obtain ⟨hdata', -⟩ := hsame p (.tail _ (.head _))
    exact .cons (by rw [hdata, hkept, hproto, hdata']) (by rwa [hdata, hdata'])
      (ih fun c hc => hsame c (.tail _ hc))

/-! ## Trees and histories -/

/-- The tree has come of that history: its scopes have objects of their own, which hold the own
properties and inherit as the chains say. -/
structure Reflects (t : Tree κ σ) (h : ScopeHistory n) : Prop where
  size : t.scopes.size = n
  data_lt : ∀ s < n, t.data s < t.store.heap.objects.size
  data_injective : ∀ s < n, ∀ c < n, t.data s = t.data c → s = c
  own : ∀ s < n, ∀ key, t.own s key = h.own s key
  inherits : ∀ s < n, t.Inherits (h.chain s)

lemma Reflects.find?_eq {h : ScopeHistory n} (ht : t.Reflects h) (hs : s < n) (key : String) :
    t.store.heap.find? key (t.data s) = h.nearest? s key := by
  obtain ⟨rest, hchain⟩ := h.exists_chain_eq s
  have hinherits : t.Inherits (s :: rest) := hchain ▸ ht.inherits s hs
  rw [hinherits.find?_eq, ScopeHistory.nearest?, hchain]
  have hown : ∀ c ∈ s :: rest, t.own c key = h.own c key := fun c hc =>
    ht.own c (h.lt_of_mem_chain hs (hchain ▸ hc)) key
  rw [← List.head?_filterMap, List.filterMap_congr hown, List.head?_filterMap]

lemma reflects_plant (store : Store σ) (compiler : Compiler) (config : Config) (timed : Bool) :
    (plant store compiler config timed : Tree κ σ).Reflects .planted := by
  have hobject := Heap.object_newObject_self store.heap .empty none
  have hroot : ∀ s < 1, (plant store compiler config timed : Tree κ σ).store.heap.object
      ((plant store compiler config timed : Tree κ σ).data s) = ⟨.empty, none⟩ := by
    intro s hs
    obtain rfl := Nat.lt_one_iff.1 hs
    exact hobject
  refine ⟨rfl, fun s hs => ?_, fun s hs c hc _ => by omega, fun s hs key => ?_, fun s hs => ?_⟩
  · obtain rfl := Nat.lt_one_iff.1 hs
    show store.heap.objects.size < (store.heap.objects.push _).size
    simp
  · rw [Tree.own, Heap.record, hroot s hs]
    rfl
  · exact .last (by rw [Heap.proto, hroot s hs])

/-! ## A new scope -/

lemma data_newScope_of_lt (t : Tree κ σ) (s : ScopeId) (isolated : Bool) (parent : ScopeId)
    {c : ScopeId} (hc : c < t.scopes.size) : (t.newScope s isolated parent).2.data c = t.data c :=
  ((later_newScope t s isolated parent).scope c hc).data

lemma data_newScope_self (t : Tree κ σ) (s : ScopeId) (isolated : Bool) (parent : ScopeId) :
    (t.newScope s isolated parent).2.data t.scopes.size = t.store.heap.objects.size := by
  have hsize : (t.modifyScope parent (·.addChild t.scopes.size)).scopes.size = t.scopes.size :=
    size_scopes_modifyScope t parent _
  simp only [newScope, data, scope]
  rw [Array.getElem?_push, if_pos hsize.symm]
  rfl

lemma Reflects.newScope {h : ScopeHistory n} (ht : t.Reflects h) (s : Fin n) (isolated : Bool)
    (parent : Fin n) :
    (t.newScope s isolated parent).2.Reflects (h.newChild s isolated parent) := by
  have hsize : t.scopes.size = n := ht.size
  let u := (t.newScope s isolated parent).2
  let proto := if isolated then none else some (t.data s)
  have hheap : u.store.heap = (t.store.heap.newObject .empty proto).2 := rfl
  have hold : ∀ c < n, u.data c = t.data c := fun c hc =>
    data_newScope_of_lt t s isolated parent (hsize ▸ hc)
  have hnew : u.data n = t.store.heap.objects.size :=
    hsize ▸ data_newScope_self t s isolated parent
  have hobject : ∀ c < n, u.store.heap.object (t.data c) = t.store.heap.object (t.data c) :=
    fun c hc => hheap ▸ Heap.object_newObject_of_lt _ _ _ (ht.data_lt c hc)
  have hobject' : u.store.heap.object t.store.heap.objects.size = ⟨.empty, proto⟩ :=
    hheap ▸ Heap.object_newObject_self _ _ _
  have hinherits : ∀ c < n, u.Inherits (h.chain c) := fun c hc =>
    (ht.inherits c hc).of_same fun q hq => by
      have hlt := h.lt_of_mem_chain hc hq
      exact ⟨hold q hlt, congrArg Object.proto (hobject q hlt)⟩
  have hcases : ∀ {c}, c < n + 1 → c < n ∨ c = n := fun hc => Nat.lt_succ_iff_lt_or_eq.1 hc
  refine ⟨?_, fun c hc => ?_, fun c hc q hq heq => ?_, fun c hc key => ?_, fun c hc => ?_⟩
  · rw [size_scopes_newScope, hsize]
  · have hgrown : u.store.heap.objects.size = t.store.heap.objects.size + 1 := by
      simp [hheap, Heap.newObject]
    show u.data c < u.store.heap.objects.size
    rw [hgrown]
    rcases hcases hc with hc | rfl
    · rw [hold c hc]
      exact (ht.data_lt c hc).trans (Nat.lt_succ_self _)
    · rw [hnew]
      exact Nat.lt_succ_self _
  · -- the object of the new scope is newer than those of the others
    have hne : ∀ c < n, u.data c ≠ u.data n := fun c hc => by
      rw [hold c hc, hnew]
      exact (ht.data_lt c hc).ne
    rcases hcases hc with hc | rfl <;> rcases hcases hq with hq | rfl
    · exact ht.data_injective c hc q hq (by rw [← hold c hc, ← hold q hq]; exact heq)
    · exact absurd heq (hne c hc)
    · exact absurd heq.symm (hne q hq)
    · rfl
  · show (u.store.heap.object (u.data c)).record.get? key = _
    rcases hcases hc with hc | rfl
    · rw [hold c hc, hobject c hc, ScopeHistory.own_newChild_of_ne _ _ _ _ hc.ne]
      exact ht.own c hc key
    · rw [hnew, hobject', ScopeHistory.own_newChild_self]
      rfl
  · show u.Inherits _
    rcases hcases hc with hc | rfl
    · rw [ScopeHistory.chain_newChild_of_ne _ _ _ _ hc.ne]
      exact hinherits c hc
    · rw [ScopeHistory.chain_newChild_self]
      have hproto : u.store.heap.proto (u.data c) = proto := by
        rw [hnew, Heap.proto, hobject']
      cases isolated with
      | true => exact .last hproto
      | false =>
        obtain ⟨rest, hchain⟩ := h.exists_chain_eq s
        have hs := hinherits s s.isLt
        simp only [Bool.false_eq_true, if_false]
        rw [hchain] at hs ⊢
        refine .cons ?_ ?_ hs
        · rw [hproto, hold s s.isLt]
          rfl
        · rw [hold s s.isLt, hnew]
          exact ht.data_lt s s.isLt

/-! ## Properties that change -/

/-- Replaces the own properties of a scope. -/
def setRecord (t : Tree κ σ) (s : ScopeId) (record : Record Value) : Tree κ σ :=
  { t with store := { t.store with heap := t.store.heap.setRecord (t.data s) record } }

/-- The own properties of one scope are changed, and of no other. -/
lemma Reflects.own_setRecord {h : ScopeHistory n} (ht : t.Reflects h) (hs : s < n)
    (record : Record Value) {c : ScopeId} (hc : c < n) (key : String) :
    (t.setRecord s record).own c key = if c = s then record.get? key else t.own c key := by
  show (((t.store.heap.setRecord (t.data s) record).record (t.data c)).get? key) = _
  split
  · next heq => rw [heq, Heap.record_setRecord_self _ (ht.data_lt s hs)]
  · next hne =>
    have hdata : t.data c ≠ t.data s := fun heq => hne (ht.data_injective c hc s hs heq)
    rw [Heap.record, Heap.object_setRecord_of_ne _ hdata]
    rfl

lemma proto_setRecord (h : Heap) (o : ℕ) (record : Record Value) (q : ℕ) :
    (h.setRecord o record).proto q = h.proto q := by
  by_cases hq : q = o
  · subst hq
    simp only [Heap.proto, Heap.object, Heap.setRecord, Array.getElem?_modify, if_true]
    cases h.objects[q]? <;> rfl
  · rw [Heap.proto, Heap.object_setRecord_of_ne _ hq, Heap.proto]

/-- Another history that leads to the same scopes is reflected, if it tells of the record that was
put in place. -/
lemma Reflects.setRecord {h h' : ScopeHistory n} (ht : t.Reflects h) (hs : s < n)
    (record : Record Value) (hchain : h'.chain = h.chain)
    (hown : ∀ c key, h'.own c key = if c = s then record.get? key else h.own c key) :
    (t.setRecord s record).Reflects h' := by
  refine ⟨ht.size, fun c hc => ?_, ht.data_injective, fun c hc key => ?_, fun c hc => ?_⟩
  · have hkept : (t.setRecord s record).store.heap.objects.size = t.store.heap.objects.size := by
      simp [Tree.setRecord, Heap.setRecord]
    rw [hkept]
    exact ht.data_lt c hc
  · rw [ht.own_setRecord hs record hc, hown]
    split
    · rfl
    · exact ht.own c hc key
  · rw [hchain]
    exact (ht.inherits c hc).of_same fun q _ => ⟨rfl, proto_setRecord _ _ _ _⟩

end Tree

/-! ## Assignments to a name -/

namespace Env

variable {env : Env} {s s' : Store σ}

lemma eq_of_guardMember {key : String} {r : Except Error Unit}
    (h : runOn (env.guardMember key) s = some (r, s')) : s' = s :=
  congrArg Prod.snd (Option.some.inj (h.symm.trans (env.runOn_guardMember key s)))

lemma eq_of_guardValue {v : Value} {r : Except Error Unit}
    (h : runOn (env.guardValue v) s = some (r, s')) : s' = s :=
  congrArg Prod.snd (Option.some.inj (h.symm.trans (env.runOn_guardValue v s)))

/-- A name is located without a change, and in the context if there are no locals. -/
lemma locateName_cases (hlocals : env.locals = none) {name : String} {r : Except Error Location}
    (h : runOn (env.locateName name) s = some (r, s')) :
    s' = s ∧ ∀ loc, r = .ok loc → loc.base = env.context ∧ loc.key = name := by
  have hholder : ∀ h : Heap, env.holder h name = env.context := fun h => by rw [holder, hlocals]
  unfold locateName at h
  rcases Compute.runOn_bind_cases h with ⟨e, h₁, rfl⟩ | ⟨_, u, h₁, hrest⟩
  · exact ⟨eq_of_guardMember h₁, fun loc hloc => nomatch hloc⟩
  · obtain rfl := eq_of_guardMember h₁
    rw [Compute.runOn_bind_of_ok (Store.runOn_reading _ u), hholder,
      Compute.runOn_bind_of_ok (Store.runOn_reading _ u)] at hrest
    rcases Compute.runOn_bind_cases hrest with ⟨e, h₂, rfl⟩ | ⟨_, v, h₂, hfound⟩
    · exact ⟨eq_of_guardValue h₂, fun loc hloc => nomatch hloc⟩
    · cases hfound
      exact ⟨eq_of_guardValue h₂, fun loc hloc => by cases hloc; exact ⟨rfl, rfl⟩⟩

/-- To write a location in an object changes nothing, or the property. -/
lemma store_cases {loc : Location} {o : ℕ} (hbase : loc.base = .object o) {v : Value}
    {r : Except Error Value} (h : runOn (env.store loc v) s = some (r, s')) :
    s' = s ∨ s' = { s with heap := s.heap.setOwn o loc.key v } := by
  unfold store at h
  rcases Compute.runOn_bind_cases h with ⟨e, h₁, -⟩ | ⟨_, u, h₁, hrest⟩
  · exact .inl (eq_of_guardValue h₁)
  · obtain rfl := eq_of_guardValue h₁
    have hwrite : runOn (Store.changingIf (·.setMember loc.base loc.key v)) u =
        some (.ok (), { u with heap := u.heap.setOwn o loc.key v }) := by
      rw [Store.runOn_changingIf, hbase]
      rfl
    rw [Compute.runOn_bind_of_ok hwrite] at hrest
    cases hrest
    exact .inr rfl

end Env

/-- To evaluate an assignment to a name without locals changes what the right-hand side changes, and
the property of that name. -/
lemma Expression.eval_assign_cases {e : Expression} {name : String} {rhs : Expr}
    (hbody : e.body = [.assign (.name name) rhs]) {lib : Library σ} {limit o : ℕ} {s s' : Store σ}
    {r : Except Error Value}
    (h : runOn (e.eval lib limit (.object o) none) s = some (r, s')) :
    s' = s ∨ ∃ r' u, runOn (e.evalPart rhs lib limit (.object o) none) s = some (r', u) ∧
      (s' = u ∨ ∃ v, s' = { u with heap := u.heap.setOwn o name v }) := by
  rw [eval, hbody, Expr.evalStatements] at h
  have hassign : ∃ r, runOn (Expr.eval lib (e.env limit (.object o) none) .read
      (.assign (.name name) rhs)) s = some (r, s') := by
    rcases Compute.runOn_bind_cases h with ⟨_, h, -⟩ | ⟨_, _, h, hlast⟩
    · exact ⟨_, h⟩
    · cases hlast
      exact ⟨_, h⟩
  obtain ⟨r, hassign⟩ := hassign
  rw [Expr.eval, Expr.locate] at hassign
  rcases Compute.runOn_bind_cases hassign with ⟨_, hloc, -⟩ | ⟨loc, u, hloc, hrest⟩
  · exact .inl (Env.locateName_cases rfl hloc).1
  · obtain ⟨rfl, hfound⟩ := Env.locateName_cases rfl hloc
    obtain ⟨hbase, rfl⟩ := hfound loc rfl
    refine .inr ?_
    rcases Compute.runOn_bind_cases hrest with ⟨_, hrhs, -⟩ | ⟨v, u, hrhs, hstore⟩
    · exact ⟨_, s', hrhs, .inl rfl⟩
    · exact ⟨_, u, hrhs, (Env.store_cases hbase hstore).imp_right fun h => ⟨v, h⟩⟩

/-! ## Runs -/

namespace Engine

variable {E : Engine κ σ} {t u : Tree κ σ}

lemma runOn_execute_request {α : Type} (q : Request κ σ α) (t : Tree κ σ) :
    runOn (E.execute (.request q)) t = runOn (E.answer q) t := by
  show runOn (Compute.attempt (E.answer q) >>= fun r => E.execute (.done r)) t = _
  rw [Compute.runOn_bind, Compute.runOn_attempt]
  cases runOn (E.answer q) t with
  | none => rfl
  | some x => rfl

lemma runOn_execute_bind {α β : Type} {p : Program κ σ α} {f : α → Program κ σ β} {a : α}
    (h : runOn (E.execute p) t = some (.ok a, u)) :
    runOn (E.execute (p >>= f)) t = runOn (E.execute (f a)) u := by
  rw [execute_bind, Compute.runOn_bind_of_ok h]

lemma runOn_writeOwn (s : ScopeId) (key : String) (v : Value) (t : Tree κ σ) :
    runOn (E.execute (.writeOwn s key v)) t =
      some (.ok (), t.setRecord s ((t.store.heap.record (t.data s)).set key v)) := rfl

lemma runOn_eraseOwn (s : ScopeId) (key : String) (t : Tree κ σ) :
    runOn (E.execute (.eraseOwn s key)) t =
      some (.ok (), t.setRecord s ((t.store.heap.record (t.data s)).erase key)) := rfl

/-- A history can be played, and the tree reflects it. -/
lemma exists_reflects (E : Engine κ σ) (store : Store σ) (compiler : Compiler) (config : Config)
    (timed : Bool) (h : ScopeHistory n) :
    ∃ t, runOn (E.execute h.program) (.plant store compiler config timed) = some (.ok (), t) ∧
      t.Reflects h := by
  induction h with
  | planted => exact ⟨_, rfl, Tree.reflects_plant store compiler config timed⟩
  | newChild h s isolated parent ih =>
    obtain ⟨t, hrun, ht⟩ := ih
    refine ⟨_, ?_, ht.newScope s isolated parent⟩
    rw [ScopeHistory.program, runOn_execute_bind hrun]
    rfl
  | write h s key v ih =>
    obtain ⟨t, hrun, ht⟩ := ih
    refine ⟨_, ?_, ht.setRecord s.isLt ((t.store.heap.record (t.data s)).set key v) rfl ?_⟩
    · rw [ScopeHistory.program, runOn_execute_bind hrun, runOn_writeOwn]
    · intro c k
      by_cases hc : c = s
      · subst hc
        by_cases hk : k = key
        · simp [ScopeHistory.own, hk]
        · simp [ScopeHistory.own, hk, ← ht.own s s.isLt, Tree.own]
      · simp [ScopeHistory.own, hc]
  | erase h s key ih =>
    obtain ⟨t, hrun, ht⟩ := ih
    refine ⟨_, ?_, ht.setRecord s.isLt ((t.store.heap.record (t.data s)).erase key) rfl ?_⟩
    · rw [ScopeHistory.program, runOn_execute_bind hrun, runOn_eraseOwn]
    · intro c k
      by_cases hc : c = s
      · subst hc
        by_cases hk : k = key
        · simp [ScopeHistory.own, hk]
        · simp [ScopeHistory.own, hk, ← ht.own s s.isLt, Tree.own]
      · simp [ScopeHistory.own, hc]

/-- To evaluate a source text changes the store as its expression does, and no scope. -/
lemma runOn_evaluateSource {s : ScopeId} {source : String} {e : Expression}
    (hparse : (t.compiler.parse source).1 = .ok e) (locals : Option Value) :
    runOn (E.evaluateSource s source locals) t =
      (runOn (e.eval E.library E.limit (.object (t.data s)) locals) t.store).map fun (r, store) =>
        (r, { t with store, compiler := (t.compiler.parse source).2 }) := by
  have hparsed : runOn (Routine.parse source) t =
      some (.ok e, { t with compiler := (t.compiler.parse source).2 }) := by
    rw [Routine.parse, Compute.runOn_alter_bind, Compute.runOn_ofExcept]
    exact congrArg (fun x => some (x, _)) hparse
  rw [evaluateSource, Compute.runOn_bind_of_ok hparsed, evaluate, Compute.runOn_read_bind]
  rfl

end Engine

/-- No own property differs but that of one name in one scope. -/
def Tree.ChangesOnly (t u : Tree κ σ) (s : ScopeId) (key : String) : Prop :=
  ∀ c < t.scopes.size, ∀ k, (c, k) ≠ (s, key) → u.own c k = t.own c k

namespace Tree.Reflects

variable {t u : Tree κ σ} {h : ScopeHistory n} {s : ScopeId}

lemma changesOnly_setOwn (ht : t.Reflects h) (hs : s < n) {heap : Heap}
    (hkeeps : t.store.heap.Keeps heap) {key : String} {v : Value} (hscopes : u.scopes = t.scopes)
    (hu : u.store.heap = heap.setOwn (t.data s) key v) : t.ChangesOnly u s key := by
  intro c hc k hne
  rw [ht.size] at hc
  have hdata : u.data c = t.data c := by rw [data, data, scope, scope, hscopes]
  have hobject : heap.object (t.data c) = t.store.heap.object (t.data c) :=
    hkeeps.object_eq (ht.data_lt c hc)
  rw [Tree.own, Tree.own, hdata, hu, Heap.setOwn]
  by_cases hcs : c = s
  · subst hcs
    have hk : k ≠ key := fun hk => hne (hk ▸ rfl)
    rw [Heap.record_setRecord_self _ (hkeeps.lt_objects (ht.data_lt c hc)),
      Record.get?_set_of_ne _ hk, Heap.record, hobject, Heap.record]
  · have hdiffers : t.data c ≠ t.data s := fun heq => hcs (ht.data_injective c hc s hs heq)
    rw [Heap.record, Heap.object_setRecord_of_ne _ hdiffers, hobject, Heap.record]

lemma changesOnly_keeps (ht : t.Reflects h) (hscopes : u.scopes = t.scopes)
    (hkeeps : t.store.heap.Keeps u.store.heap) (key : String) : t.ChangesOnly u s key := by
  intro c hc k _
  rw [ht.size] at hc
  have hdata : u.data c = t.data c := by rw [data, data, scope, scope, hscopes]
  rw [Tree.own, Tree.own, hdata, Heap.record, hkeeps.object_eq (ht.data_lt c hc), Heap.record]

end Tree.Reflects

/-- Whatever scopes were made and whatever properties were written and erased: the value of a
property is that of its nearest owner on the chain of scopes that a scope inherits from, and it is
there if there is one.  To write a property of a scope, or to evaluate an assignment to a name in it
whose right-hand side leaves what there is as it is, changes no own property but this one. -/
theorem Host.get_eq_nearest (H : Host κ σ) (store : Store σ) (compiler : Compiler) (config : Config)
    (timed : Bool) (limit : ℕ) (h : ScopeHistory n) :
    ∃ t, H.run limit h.program (.plant store compiler config timed) = some (.ok (), t) ∧
      t.scopes.size = n ∧
      ∀ (s : Fin n) (key : String),
        t.own s key = h.own s key ∧
        t.get s key = (h.nearest? s key).getD .undefined ∧
        t.has s key = (h.nearest? s key).isSome ∧
        (∀ v, ∃ u, H.run limit (.writeOwn s key v) t = some (.ok (), u) ∧
          u.own s key = some v ∧ t.ChangesOnly u s key) ∧
        ∀ (source : String) (e : Expression) (rhs : Expr) (r : Except Error Value) (u : Tree κ σ),
          (t.compiler.parse source).1 = .ok e → e.body = [.assign (.name key) rhs] →
          (∀ r' store', runOn (e.evalPart rhs H.library limit (.object (t.data s)) none) t.store =
            some (r', store') → t.store.heap.Keeps store'.heap) →
          H.run limit (.request (.evaluate s source none)) t = some (r, u) →
          t.ChangesOnly u s key := by
  obtain ⟨t, hrun, ht⟩ := (H.engine limit).exists_reflects store compiler config timed h
  refine ⟨t, hrun, ht.size, fun s key => ⟨ht.own s s.isLt key, ?_, ?_, fun v => ?_, ?_⟩⟩
  · rw [Tree.get, Heap.get, ht.find?_eq s.isLt]
  · rw [Tree.has, ht.find?_eq s.isLt]
  · refine ⟨_, Engine.runOn_writeOwn s key v t, ?_,
      ht.changesOnly_setOwn s.isLt (Heap.Keeps.refl _) rfl rfl⟩
    rw [ht.own_setRecord s.isLt _ s.isLt, if_pos rfl, Record.get?_set_self]
  · intro source e rhs r u hparse hbody hrhs hassign
    rw [Host.run, Engine.runOn_execute_request, Engine.answer,
      Engine.runOn_evaluateSource hparse, Option.map_eq_some_iff] at hassign
    obtain ⟨⟨r', store'⟩, heval, hu⟩ := hassign
    obtain ⟨rfl, rfl⟩ := Prod.mk.inj hu
    have hscopes : ({ t with store := store', compiler := (t.compiler.parse source).2 } :
        Tree κ σ).scopes = t.scopes := rfl
    rcases Expression.eval_assign_cases hbody heval with hsame | ⟨r', mid, hmid, hsame | ⟨v, hset⟩⟩
    · exact ht.changesOnly_keeps hscopes (hsame ▸ Heap.Keeps.refl _) key
    · exact ht.changesOnly_keeps hscopes (hsame ▸ hrhs r' mid hmid) key
    · exact ht.changesOnly_setOwn s.isLt (hrhs r' mid hmid) hscopes (congrArg Store.heap hset)

/-! ## A scope that inherits from elsewhere -/

/-- Two children of the root; the first has a property, and is asked for a child of the second. -/
def adoption : ScopeHistory 4 :=
  ((ScopeHistory.planted.newChild 0 false 0).newChild 0 false 0
    |>.write 1 "p" (.bool true)).newChild 1 false 2

/-- An expression that assigns to a name. -/
def clearing : Expression := ⟨"p = null", [.assign (.name "p") (.literal .null)], [], false⟩

lemma parse_clearing : ((⟨.empty, .empty⟩ : Compiler).parse "p = null").1 = .ok clearing := by
  have hmarks : Compiler.withoutMarks (Compiler.key "p = null") = ("p = null", false) := by
    decide
  have hcompile : Expression.compile .empty "p = null" false = .ok clearing := by
    cbv
  exact (Compiler.parse_of_not_cached (Record.get?_empty _) hmarks).trans hcompile

/-- The last scope has the property of the scope that was asked, and an assignment to it leaves the
property of that one as it was. -/
theorem adoption_inherits : ∃ t u, idler.run 9 adoption.program
      (.plant ⟨.empty, ()⟩ ⟨.empty, .empty⟩ {} false) = some (.ok (), t) ∧
    t.get 3 "p" = .bool true ∧ (t.scope 3).parent = some 2 ∧
    idler.run 9 (.request (.evaluate 3 "p = null" none)) t = some (.ok .null, u) ∧
    u.own 3 "p" = some .null ∧ u.own 1 "p" = t.own 1 "p" := by
  obtain ⟨t, hrun, hsize, hlaw⟩ :=
    idler.get_eq_nearest ⟨.empty, ()⟩ ⟨.empty, .empty⟩ {} false 9 adoption
  obtain ⟨-, hget, -, -, hassign⟩ := hlaw 3 "p"
  have hplayed : (t.scope 3).parent = some 2 ∧ t.compiler = ⟨.empty, .empty⟩ ∧
      ∃ store, runOn (clearing.eval idler.library 9 (.object (t.data 3)) none) t.store =
        some (.ok .null, store) ∧ (store.heap.record (t.data 3)).get? "p" = some .null := by
    generalize hx : idler.run 9 adoption.program _ = x at hrun
    cbv at hx
    subst hx
    cases hrun
    refine ⟨rfl, rfl, ?_⟩
    generalize hy : runOn (clearing.eval _ _ _ _) _ = y
    cbv at hy
    subst hy
    exact ⟨_, rfl, by cbv⟩
  obtain ⟨hparent, hcompiler, store, heval, hwritten⟩ := hplayed
  have hparse : (t.compiler.parse "p = null").1 = .ok clearing := hcompiler ▸ parse_clearing
  have hassigned : idler.run 9 (.request (.evaluate 3 "p = null" none)) t =
      some (.ok .null, { t with store, compiler := (t.compiler.parse "p = null").2 }) := by
    rw [Host.run, Engine.runOn_execute_request, Engine.answer, Engine.runOn_evaluateSource hparse]
    exact congrArg (Option.map _) heval
  have hrhs : ∀ r store, runOn (clearing.evalPart (.literal .null) idler.library 9
      (.object (t.data 3)) none) t.store = some (r, store) → t.store.heap.Keeps store.heap := by
    intro r store h
    cases h
    exact Heap.Keeps.refl _
  have hchanges := hassign "p = null" clearing _ _ _ hparse rfl hrhs hassigned
  exact ⟨t, _, hrun, hget, hparent, hassigned, hwritten, hchanges 1 (by omega) "p" (by decide)⟩

end DataBinding
