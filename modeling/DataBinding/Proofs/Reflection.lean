import DataBinding.Proofs.Occurrences

/-!
# Reflective members

The names that expressions cannot name are out of their reach however a name comes about: written
out, computed from any value, or on the way to what is assigned.  Nothing is written under them in
an object that was there before, and what is stored there under the reflective ones makes no
difference to an evaluation (`Expression.reflection_out_of_reach`).  An object literal can have a
property of such a name, and that is the only way to write one: into an object that has just been
made.

The host has to respect this as well (`Library.Discreet`).  Both parts are one relation between
stores which evaluation respects, that they are the same behind the veil and have spared what they
began with.
-/

namespace DataBinding

open Compute (Follows Leads runOn)

variable {σ : Type}

/-! ## What stays under the forbidden names -/

namespace Heap

variable {g h k : Heap} {key : String}

/-- The objects of the first heap are still there in the second one and store the same under the
forbidden names. -/
structure Spares (g h : Heap) : Prop where
  size : g.objects.size ≤ h.objects.size
  stored : ∀ o < g.objects.size, ∀ key ∈ forbiddenMembers,
    (h.record o).get? key = (g.record o).get? key

lemma Spares.refl (h : Heap) : h.Spares h := ⟨le_rfl, fun _ _ _ _ => rfl⟩

namespace Spares

lemma trans (hg : g.Spares h) (hh : h.Spares k) : g.Spares k where
  size := hg.size.trans hh.size
  stored o ho key hkey := by
    rw [hh.stored o (ho.trans_le hg.size) key hkey, hg.stored o ho key hkey]

variable (hg : g.Spares h)

include hg

lemma newObject (record : Record Value) (proto : Option ℕ) :
    g.Spares (h.newObject record proto).2 where
  size := by
    rw [Heap.newObject, Array.size_push]
    exact Nat.le_succ_of_le hg.size
  stored o ho key hkey := by
    rw [record_eq, object_newObject, if_neg (ho.trans_le hg.size).ne]
    exact hg.stored o ho key hkey

/-- A property is written to an object that has been made since. -/
lemma setOwn_of_le {o : ℕ} (ho : g.objects.size ≤ o) (key : String) (v : Value) :
    g.Spares (h.setOwn o key v) where
  size := by
    simpa only [Heap.setOwn, setRecord, Array.size_modify] using hg.size
  stored p hp key hkey := by
    rw [record_eq, object_setOwn, if_neg fun h => (hp.trans_le ho).ne h.1]
    exact hg.stored p hp key hkey

/-- A property with another name is written. -/
lemma setOwn_of_permitted (hkey : key ∉ forbiddenMembers) (o : ℕ) (v : Value) :
    g.Spares (h.setOwn o key v) where
  size := by
    simpa only [Heap.setOwn, setRecord, Array.size_modify] using hg.size
  stored p hp other hother := by
    rw [← hg.stored p hp other hother, record_eq, object_setOwn]
    split
    · next ho => rw [ho.1, Record.get?_set_of_ne _ (ne_of_mem_of_not_mem hother hkey)]
    · rfl

lemma setMember (hkey : key ∉ forbiddenMembers) {base v : Value} {h' : Heap}
    (hwrite : h.setMember base key v = some (.ok h')) : g.Spares h' := by
  rcases setMember_cases hwrite with rfl | ⟨a, items, rfl, rfl⟩ | ⟨o, rfl, rfl⟩
  · exact hg
  · exact ⟨hg.size, hg.stored⟩
  · exact hg.setOwn_of_permitted hkey o v

end Spares

end Heap

/-! ## The relation -/

namespace Store

/-- The stores differ in nothing but what their objects store under the reflective names. -/
structure Veiled (s s' : Store σ) : Prop where
  heap : s.heap.Veiled s'.heap
  host : s'.host = s.host

lemma Veiled.refl (s : Store σ) : s.Veiled s := ⟨.refl _, rfl⟩

lemma Veiled.symm {s s' : Store σ} (h : s.Veiled s') : s'.Veiled s := ⟨h.heap.symm, h.host.symm⟩

/-- The stores differ in nothing but the reflective members, and each has spared a heap. -/
structure Behind (g g' : Heap) (s s' : Store σ) : Prop where
  veiled : s.Veiled s'
  left : g.Spares s.heap
  right : g'.Spares s'.heap

end Store

/-- The functions of the host and the filters do not touch the forbidden names: they write nothing
under them into objects that are there already, and what they do does not depend on what is stored
under the reflective ones. -/
structure Library.Discreet (lib : Library σ) : Prop where
  call_spares : ∀ name this args,
    Leads (fun s t : Store σ => s.heap.Spares t.heap) (lib.call name this args)
  filter_spares : ∀ behaviour args,
    Leads (fun s t : Store σ => s.heap.Spares t.heap) (lib.filter behaviour args)
  call_veiled : ∀ name this args,
    Follows Store.Veiled (lib.call name this args) (lib.call name this args)
  filter_veiled : ∀ behaviour args,
    Follows Store.Veiled (lib.filter behaviour args) (lib.filter behaviour args)

namespace Store.Behind

variable {g g' : Heap} {s s' : Store σ}

lemma symm (hs : Behind g g' s s') : Behind g' g s' s := ⟨hs.veiled.symm, hs.right, hs.left⟩

lemma follows {m : Compute (Store σ) Value} (hspares : Leads (fun s t => s.heap.Spares t.heap) m)
    (hveiled : Follows Store.Veiled m m) : Follows (Behind g g') m m := by
  intro s s' r t hs hrun
  obtain ⟨t', hrun', ht⟩ := hveiled hs.veiled hrun
  exact ⟨t', hrun', ht, hs.left.trans (hspares hrun), hs.right.trans (hspares hrun')⟩

lemma setMember (hs : Behind g g' s s') (base : Value) {key : String}
    (hkey : key ∉ forbiddenMembers) (v : Value) :
    Option.Rel (Agree fun h h' => Behind g g' { s with heap := h } { s' with heap := h' })
      (s.heap.setMember base key v) (s'.heap.setMember base key v) := by
  have hrel := hs.veiled.heap.setMember base key v
  generalize hx : s.heap.setMember base key v = x, hy : s'.heap.setMember base key v = y at hrel
  cases hrel with
  | none => exact .none
  | some hagree =>
    cases hagree with
    | ok hk =>
      exact .some
        (.ok ⟨⟨hk, hs.veiled.host⟩, hs.left.setMember hkey hx, hs.right.setMember hkey hy⟩)
    | error e => exact .some (.error e)

end Store.Behind

/-- Evaluation does not look behind the veil. -/
lemma respected_behind {lib : Library σ} (hlib : lib.Discreet) (g g' : Heap) :
    Respected lib (Store.Behind g g') where
  veiled hs := hs.veiled.heap
  newArray hs items :=
    ⟨⟨hs.veiled.heap.newArray items, hs.veiled.host⟩, ⟨hs.left.size, hs.left.stored⟩,
      ⟨hs.right.size, hs.right.stored⟩⟩
  newObject hs := ⟨⟨hs.veiled.heap.newObject .empty none, hs.veiled.host⟩,
    hs.left.newObject .empty none, hs.right.newObject .empty none⟩
  newFunction hs c :=
    ⟨⟨hs.veiled.heap.newFunction c, hs.veiled.host⟩, ⟨hs.left.size, hs.left.stored⟩,
      ⟨hs.right.size, hs.right.stored⟩⟩
  setOwn hs _ _ hu key v :=
    ⟨⟨hu.veiled.heap.setOwn _ key v, hu.veiled.host⟩, hu.left.setOwn_of_le hs.left.size key v,
      hu.right.setOwn_of_le (hs.right.size.trans_eq hs.veiled.heap.size) key v⟩
  setMember hs base _ hkey v := hs.setMember base hkey v
  call name this args := Store.Behind.follows (hlib.call_spares name this args)
    (hlib.call_veiled name this args)
  filter behaviour args :=
    Store.Behind.follows (hlib.filter_spares behaviour args) (hlib.filter_veiled behaviour args)

/-! ## Compiled expressions -/

/-- The member of the value is written. -/
def Effect.Writes (base : Value) (key : String) (v : Value) : Effect σ → Prop
  | .write base' key' v' => base' = base ∧ key' = key ∧ v' = v
  | .property o key' v' => .object o = base ∧ key' = key ∧ v' = v
  | _ => False

namespace Expression

variable (e : Expression) {lib : Library σ} (context : Value) (locals : Option Value) (u : Use)
  {s s' : Store σ}

/-- The use of a compiled expression comes to write the member of the value. -/
def Writes (lib : Library σ) (context : Value) (locals : Option Value) (s : Store σ) (u : Use)
    (base : Value) (key : String) (v : Value) : Prop :=
  e.Meets lib context locals (fun ev _ => ev.Writes base key v) s u

lemma follows_use {S : Store σ → Store σ → Prop} (hS : Respected lib S) (n : ℕ) :
    Follows S (e.use lib context locals n u) (e.use lib context locals n u) := by
  cases u with
  | eval => exact hS.evalStatements (e.env n context locals) le_rfl .undefined e.body
  | assign v =>
    unfold use assign
    cases e.target? with
    | none => exact .throw _
    | some p =>
      exact (hS.locate (e.env n context locals) le_rfl .create p).bind_of fun loc _ _ _ _ hrun =>
        hS.store _ (Expr.located_of_locate hrun).permitted v

variable {e context locals u}

/-- Under a forbidden name nothing is written but into objects that have been made since. -/
lemma Writes.size_le (hlib : lib.Discreet) {o : ℕ} {key : String} {v : Value}
    (h : e.Writes lib context locals s u (.object o) key v) (hkey : key ∈ forbiddenMembers) :
    s.heap.objects.size ≤ o := by
  have hcarries : Carries lib (e.env 0 context locals) (Store.Behind s.heap s.heap)
      (fun ev _ => ev.Writes (.object o) key v) fun _ _ => s.heap.objects.size ≤ o := by
    rintro ev ev' w w' - hw hdue hwrites
    cases ev with
    | write base' key' v' =>
      obtain ⟨-, rfl, -⟩ := hwrites
      exact absurd hkey hdue
    | property o' key' v' =>
      obtain ⟨hbase, -⟩ := hwrites
      cases hbase
      obtain ⟨t, t', ht, rfl⟩ := hdue
      exact ht.left.size
    | _ => exact hwrites.elim
  have hs : Store.Behind s.heap s.heap s s := ⟨.refl s, .refl _, .refl _⟩
  obtain ⟨_, _, hle⟩ := exists_of_meets (h.of_respected (respected_behind hlib _ _) hcarries hs)
  exact hle

/-- What is written in a store is written in one that differs behind the veil. -/
lemma Writes.of_veiled (hlib : lib.Discreet) (hs : s.Veiled s') {base v : Value} {key : String}
    (h : e.Writes lib context locals s u base key v) :
    e.Writes lib context locals s' u base key v := by
  have hcarries : Carries lib (e.env 0 context locals) (Store.Behind s.heap s'.heap)
      (fun ev _ => ev.Writes base key v) fun ev _ => ev.Writes base key v := by
    rintro ev ev' w w' hmatches - - hwrites
    cases ev with
    | call c => exact hwrites.elim
    | _ =>
      cases hmatches
      exact hwrites
  exact Meets.of_respected (respected_behind hlib _ _) hcarries ⟨hs, .refl _, .refl _⟩ h

/-- Runs in stores that differ behind the veil only have no end in either, or the same result in
both. -/
lemma runOn_use_of_veiled (hlib : lib.Discreet) (hs : s.Veiled s') (n : ℕ) :
    Option.Rel (fun x y => x.1 = y.1 ∧ x.2.Veiled y.2)
      (runOn (e.use lib context locals n u) s) (runOn (e.use lib context locals n u) s') := by
  have hfollows : ∀ g g', Follows (Store.Behind g g') (e.use lib context locals n u)
      (e.use lib context locals n u) := fun g g' =>
    e.follows_use context locals u (respected_behind hlib g g') n
  have hbehind : Store.Behind s.heap s'.heap s s' := ⟨hs, .refl _, .refl _⟩
  cases hrun : runOn (e.use lib context locals n u) s with
  | some x =>
    obtain ⟨r, t⟩ := x
    obtain ⟨t', hrun', ht⟩ := hfollows _ _ hbehind hrun
    rw [hrun']
    exact .some ⟨rfl, ht.veiled⟩
  | none =>
    cases hrun' : runOn (e.use lib context locals n u) s' with
    | some x =>
      obtain ⟨t, hrun'', -⟩ := hfollows _ _ hbehind.symm hrun'
      cases hrun.symm.trans hrun''
    | none => exact .none

/-- With functions and filters that do not touch the forbidden names, the use of a compiled
expression writes nothing under them into an object that was there before, and leaves there what was
stored under them; and what is stored under the reflective ones makes no difference to its result,
to what it writes and to what the stores look like at its end. -/
theorem reflection_out_of_reach (e : Expression) {lib : Library σ} (hlib : lib.Discreet)
    (context : Value) (locals : Option Value) (u : Use) (s : Store σ) :
    (∀ o key v, e.Writes lib context locals s u (.object o) key v → key ∈ forbiddenMembers →
      s.heap.objects.size ≤ o) ∧
    (∀ n r t, runOn (e.use lib context locals n u) s = some (r, t) → s.heap.Spares t.heap) ∧
    ∀ s', s.Veiled s' →
      (∀ n, Option.Rel (fun x y => x.1 = y.1 ∧ x.2.Veiled y.2)
        (runOn (e.use lib context locals n u) s) (runOn (e.use lib context locals n u) s')) ∧
      ∀ base key v, e.Writes lib context locals s u base key v ↔
        e.Writes lib context locals s' u base key v := by
  refine ⟨fun o key v hwrites hkey => hwrites.size_le hlib hkey, fun n r t hrun => ?_,
    fun s' hs => ⟨fun n => runOn_use_of_veiled hlib hs n,
      fun base key v => ⟨.of_veiled hlib hs, .of_veiled hlib hs.symm⟩⟩⟩
  have hs : Store.Behind s.heap s.heap s s := ⟨.refl s, .refl _, .refl _⟩
  obtain ⟨t', -, ht⟩ := e.follows_use context locals u (respected_behind hlib _ _) n hs hrun
  exact ht.left

end Expression

/-! ## An object with a prototype of its own -/

/-- A host that does nothing touches nothing. -/
lemma discreet_idle : Library.idle.Discreet where
  call_spares _ _ _ s r t h := by
    cases h
    exact .refl _
  filter_spares _ _ s r t h := by
    cases h
    exact .refl _
  call_veiled _ _ _ := .pure _
  filter_veiled _ _ := .pure _

/-- In the context is an object `o` that stores a value as its `__proto__`. -/
def protoStore (v : Value) : Store Unit where
  heap := {
    arrays := #[]
    objects := #[⟨⟨[("o", .object 1)]⟩, none⟩, ⟨⟨[("__proto__", v)]⟩, none⟩]
    closures := #[] }
  host := ()

/-- The stores are the same but for what is stored as `__proto__`. -/
lemma protoStore_veiled (v w : Value) : (protoStore v).Veiled (protoStore w) := by
  have hproto : "__proto__" ∈ reflectiveMembers := by decide
  refine ⟨⟨rfl, rfl, rfl, fun o => ?_, fun o => ?_⟩, rfl⟩
  · rcases o with _ | _ | o
    · rfl
    · exact (Record.visible_set_reflective .empty hproto w).trans
        (Record.visible_set_reflective .empty hproto v).symm
    · rfl
  · rcases o with _ | _ | o <;> rfl

namespace Expression

/-- The object gets an object with another `__proto__` as its member. -/
def nestedProto : Expression :=
  ⟨"o.p = {__proto__: o}", [.assign (.member (.place (.name "o")) "p")
    (.object [(.name "__proto__", .place (.name "o"))])], [], false⟩

/-- A reflective name is written, into an object that has been made since. -/
lemma nestedProto_writes : nestedProto.Writes .idle (.object 0) none (protoStore .null) .eval
    (.object 2) "__proto__" (.object 1) := by
  refine .inl (.inr ⟨⟨.object 1, "p", .undefined⟩, protoStore .null, ⟨0, by cbv⟩, .inl ?_⟩)
  exact ⟨2, _, ⟨0, rfl⟩, .inr ⟨.object 1, _, ⟨0, by cbv⟩, .inl ⟨rfl, rfl, rfl⟩⟩⟩

theorem nestedProto_out_of_reach :
    Library.idle.Discreet ∧ (protoStore .null).Veiled (protoStore (.object 0)) ∧
    (protoStore .null).heap.objects.size ≤ 2 ∧
    nestedProto.Writes .idle (.object 0) none (protoStore (.object 0)) .eval (.object 2)
      "__proto__" (.object 1) ∧
    Option.Rel (fun x y => x.1 = y.1 ∧ x.2.Veiled y.2)
      (runOn (nestedProto.use .idle (.object 0) none 0 .eval) (protoStore .null))
      (runOn (nestedProto.use .idle (.object 0) none 0 .eval) (protoStore (.object 0))) := by
  obtain ⟨hwrites, -, hveiled⟩ :=
    reflection_out_of_reach nestedProto discreet_idle (.object 0) none .eval (protoStore .null)
  obtain ⟨hruns, hsame⟩ := hveiled _ (protoStore_veiled .null (.object 0))
  exact ⟨discreet_idle, protoStore_veiled .null (.object 0),
    hwrites 2 "__proto__" (.object 1) nestedProto_writes (by decide),
    (hsame _ _ _).1 nestedProto_writes, hruns 0⟩

end Expression

end DataBinding
