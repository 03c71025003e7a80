import DataBinding.Proofs.Reading
import DataBinding.Proofs.Thawing

/-!
# What a literal makes

The value of a composed expression over regular data has an end, and no record in it has a name
twice (`Expr.Composed.formed`), so it can be frozen and agrees with its frozen form
(`Heap.Formed.exists_freeze?`).  A literal of an array or an object makes a fresh container whenever
it is evaluated (`Expr.Composed.not_has`).  Where it has a value, so has what is watched of it
(`Expr.Composed.ok_of_mem_watched`).
-/

namespace DataBinding

open Compute (runOn)
open Relation (ReflTransGen TransGen)

variable {σ : Type}

/-! ## Values that are well formed -/

namespace Heap

/-- A value of the heap `h` that has an end: all that it holds, and so on down, is in the heap, no
object on the way has a name twice, and what was in the heap `c` already has the property. -/
inductive Formed (P : Value → Prop) (c h : Heap) : Value → Prop
  | intro {v : Value} (hhas : h.Has v) (hold : c.Has v → v.IsAtom ∨ P v)
    (hnodup : ∀ o, v = .object o → (h.record o).keys.Nodup)
    (hheld : ∀ w, h.Holds v w → Formed P c h w) : Formed P c h v

/-- All that can be reached from the value is in the heap, contains not itself, and has no name
twice. -/
structure Regular (h : Heap) (v : Value) : Prop where
  complete : h.Complete v
  acyclic : ∀ w, ReflTransGen h.Refers v w → ¬ h.Cyclic w
  nodup : ∀ o, ReflTransGen h.Refers v (.object o) → (h.record o).keys.Nodup

variable {P : Value → Prop} {b c c' h k : Heap} {v w : Value}

lemma not_holds_of_isAtom (hv : v.IsAtom) : ¬ h.Holds v w := fun hw =>
  not_refers_of_isAtom hv (.inl hw)

namespace Formed

lemma has (hv : Formed P c h v) : h.Has v := by
  obtain ⟨hhas, -, -, -⟩ := hv
  exact hhas

lemma of_isAtom (hv : v.IsAtom) : Formed P c h v := by
  refine .intro (has_of_isAtom hv) (fun _ => .inl hv) (fun o ho => ?_) fun w hw => ?_
  · subst ho
    cases hv
  · exact absurd hw (not_holds_of_isAtom hv)

lemma of_reaches (hv : Formed P c h v) (hw : ReflTransGen h.Holds v w) : Formed P c h w := by
  induction hw with
  | refl => exact hv
  | tail _ hstep ih =>
    obtain ⟨-, -, -, hheld⟩ := ih
    exact hheld _ hstep

/-- What holds a container that contains itself has no end. -/
lemma not_cyclic (hv : Formed P c h v) : ¬ h.Cyclic v := by
  induction hv with
  | intro _ _ _ _ ih =>
    rintro ⟨w, hw, hloop⟩
    rcases hw.cases_head with rfl | ⟨x, hx, hxw⟩
    · obtain ⟨x, hx, hxv⟩ := Relation.TransGen.head'_iff.1 hloop
      exact ih x hx ⟨_, hxv, hloop⟩
    · exact ih x hx ⟨w, hxw, hloop⟩

/-- It can be frozen, and agrees with its frozen form. -/
lemma exists_freeze? (hv : Formed P c h v) : ∃ f, h.freeze? v = some f ∧ h.agrees f v = true := by
  cases hf : h.freeze? v with
  | none => exact absurd (freeze?_eq_none_iff.1 hf) hv.not_cyclic
  | some f =>
    refine ⟨f, rfl, agrees_of_freezeWithin hf fun o ho => ?_⟩
    obtain ⟨-, -, hnodup, -⟩ := hv.of_reaches ho
    exact hnodup o rfl

/-- A heap in which all such values are as they were. -/
lemma congr (hv : Formed P c h v) (hsame : ∀ w, Formed P c h w → h.SameAt k w) :
    Formed P c k v := by
  induction hv with
  | @intro v hhas hold hnodup hheld ih =>
    have hv : h.SameAt k v := hsame v (.intro hhas hold hnodup hheld)
    refine .intro hv.symm.has hold (fun o ho => ?_) fun w hw => ?_
    · subst ho
      rw [record, ← hv.object_eq]
      exact hnodup o rfl
    · refine ih w ?_
      rcases hv.refers (.inl hw) with hheld | ⟨o, p, rfl, -, rfl⟩
      · exact hheld
      · rw [Holds, held, record, ← hv.object_eq] at hw
        exact hw

lemma of_keeps (hv : Formed P c h v) (hhk : h.Keeps k) : Formed P c k v :=
  hv.congr fun _ hw => hhk.sameAt hw.has

/-- What was in an earlier heap was in a later one. -/
lemma of_later (hv : Formed P c' h v) (hle : ∀ w, c.Has w → c'.Has w) : Formed P c h v := by
  induction hv with
  | intro hhas hold hnodup _ ih => exact .intro hhas (fun h => hold (hle _ h)) hnodup ih

end Formed

/-- An object that inherits from none and holds no containers is regular. -/
lemma Regular.of_atoms {o : ℕ} (ho : h.Has (.object o)) (hparent : h.parent? o = none)
    (hnodup : (h.record o).keys.Nodup) (hheld : ∀ w, h.Holds (.object o) w → w.IsAtom) :
    h.Regular (.object o) := by
  have hreaches (w : Value) (hw : ReflTransGen h.Refers (.object o) w) :
      w = .object o ∨ w.IsAtom := by
    rcases hw.cases_head with rfl | ⟨x, hx, hxw⟩
    · exact .inl rfl
    · have hx : x.IsAtom := by
        rcases hx with hx | ⟨p, q, hp, hq, -⟩
        · exact hheld x hx
        · cases hp
          cases hparent.symm.trans hq
      rw [eq_of_reaches_of_isAtom hx hxw]
      exact .inr hx
  have hacyclic (w : Value) (hw : w = .object o ∨ w.IsAtom) : ¬ TransGen h.Holds w w := by
    intro hloop
    obtain ⟨x, hx, hxw⟩ := TransGen.head'_iff.1 hloop
    rcases hw with rfl | hw
    · rcases hxw.cases_head with rfl | ⟨y, hy, -⟩
      · cases hheld _ hx
      · exact not_holds_of_isAtom (hheld x hx) hy
    · exact not_holds_of_isAtom hw hx
  refine ⟨fun w hw => ?_, fun w hw ⟨x, hx, hloop⟩ => ?_, fun p hp => ?_⟩
  · rcases hreaches w hw with rfl | hatom
    · exact ho
    · exact has_of_isAtom hatom
  · exact hacyclic x (hreaches x (hw.trans (ReflTransGen.mono (fun _ _ => .inl) _ _ hx))) hloop
  · rcases hreaches _ hp with heq | hatom
    · cases heq
      exact hnodup
    · cases hatom

lemma Keeps.has (hhk : h.Keeps k) (hv : h.Has v) : k.Has v := (hhk.sameAt hv).symm.has

lemma Has.setOwn (hv : h.Has v) (o : ℕ) (key : String) (x : Value) :
    (h.setOwn o key x).Has v := by
  cases v with
  | object p => simpa [Has, Heap.setOwn, setRecord] using hv
  | function f => cases f <;> exact hv
  | _ => exact hv

/-- Regular data are well formed in all heaps that keep them. -/
lemma Regular.formed (hdata : b.Regular v) (hh : b.Keeps h) (hw : ReflTransGen b.Refers v w) :
    Formed (ReflTransGen b.Refers v) c h w := by
  obtain ⟨n, hn⟩ : ∃ n, ¬ b.Nested n w := by
    refine ⟨b.containerCount + 1, fun hnested => hdata.acyclic w hw ?_⟩
    exact hnested.cyclic (Nat.lt_succ_self _)
  induction n generalizing w with
  | zero =>
    refine .intro (hh.has (hdata.complete w hw)) (fun _ => .inr hw) (fun o ho => ?_) fun x hx => ?_
    · subst ho
      exact absurd (.object o) hn
    · have hsame := hh.sameAt (hdata.complete w hw)
      cases w with
      | array a => exact absurd (.array a) hn
      | object o => exact absurd (.object o) hn
      | _ => cases hx
  | succ n ih =>
    have hsame := hh.sameAt (hdata.complete w hw)
    refine .intro (hh.has (hdata.complete w hw)) (fun _ => .inr hw) (fun o ho => ?_) fun x hx => ?_
    · subst ho
      rw [record, ← hsame.object_eq]
      exact hdata.nodup o hw
    · have hx : b.Holds w x := by
        cases w with
        | array a =>
          rw [Holds, held, ← hsame.items_eq] at hx
          exact hx
        | object o =>
          rw [Holds, held, record, ← hsame.object_eq] at hx
          exact hx
        | _ => cases hx
      exact ih (hw.tail (.inl hx)) fun hnested => hn (.down hx hnested)

end Heap

/-! ## What a composed expression makes -/

namespace Expr

open Heap (Formed)

variable {lib : Library σ} {env : Env} {b c : Heap} {s t : Store σ} {e p : Expr} {v : Value}
  {P : Value → Prop}

/-- An object that is being filled: it was made after the heap `c`, and its properties are well
formed. -/
structure Filled (P : Value → Prop) (c h : Heap) (o : ℕ) : Prop where
  lt : o < h.objects.size
  nodup : (h.record o).keys.Nodup
  formed : ∀ {key v}, (h.record o).get? key = some v → Formed P c h v

namespace Filled

variable {h k : Heap} {o : ℕ}

lemma of_keeps (ho : Filled P c h o) (hhk : h.Keeps k) : Filled P c k o where
  lt := hhk.lt_objects ho.lt
  nodup := by
    rw [Heap.record, hhk.object_eq ho.lt]
    exact ho.nodup
  formed hv := by
    rw [Heap.record, hhk.object_eq ho.lt] at hv
    exact (ho.formed hv).of_keeps hhk

/-- A well-formed value from which the object cannot be reached is put into it. -/
lemma setOwn (ho : Filled P c h o) (hold : c.Has (.object o)) (hP : ¬ P (.object o))
    (key : String) (hv : Formed P c h v) : Filled P c (h.setOwn o key v) o := by
  have hsame : ∀ w, Formed P c h w → h.SameAt (h.setOwn o key v) w := by
    intro w hw
    by_cases hwo : w = .object o
    · subst hwo
      obtain ⟨-, hw, -, -⟩ := hw
      rcases hw hold with hatom | hw
      · cases hatom
      · exact absurd hw hP
    · have hgrown : ∀ {α : Type} {xs : Array α} {i : ℕ}, i < xs.size → ∃ x, xs[i]? = some x :=
        fun hi => ⟨_, Array.getElem?_eq_getElem hi⟩
      have hhas := hw.has
      cases w with
      | array a =>
        obtain ⟨items, hitems⟩ := hgrown hhas
        exact ⟨items, hitems, hitems⟩
      | object p =>
        obtain ⟨object, hobject⟩ := hgrown hhas
        refine ⟨object, hobject, ?_⟩
        have hne : o ≠ p := fun heq => hwo (heq ▸ rfl)
        simpa [Heap.setOwn, Heap.setRecord, Array.getElem?_modify, hne] using hobject
      | function f =>
        cases f with
        | intrinsic => trivial
        | made f =>
          obtain ⟨closure, hclosure⟩ := hgrown hhas
          exact ⟨closure, hclosure, hclosure⟩
      | _ => trivial
  have hrecord : (h.setOwn o key v).record o = (h.record o).set key v :=
    Heap.record_setRecord_self _ ho.lt _
  refine ⟨by simpa [Heap.setOwn, Heap.setRecord] using ho.lt, ?_, fun {key' w} hw => ?_⟩
  · rw [hrecord]
    exact Heap.nodup_keys_set ho.nodup key v
  · rw [hrecord] at hw
    by_cases hkey : key' = key
    · subst hkey
      rw [Record.get?_set_self] at hw
      cases hw
      exact hv.congr hsame
    · rw [Record.get?_set_of_ne _ hkey] at hw
      exact (ho.formed hw).congr hsame

/-- It is well formed itself. -/
lemma formed_object (ho : Filled P c h o) (hnew : ¬ b.Has (.object o))
    (hle : ∀ w, b.Has w → c.Has w) : Formed P b h (.object o) := by
  refine .intro ho.lt (fun hb => absurd hb hnew) (fun p hp => ?_) fun w hw => ?_
  · cases hp
    exact ho.nodup
  · obtain ⟨⟨key, x⟩, hx, rfl⟩ := List.mem_map.1 hw
    exact (ho.formed (Heap.get?_of_mem_entries ho.nodup hx)).of_later hle

end Filled

/-- A fresh array of well-formed values is well formed. -/
lemma formed_newArray {h : Heap} {values : List Value} (hch : c.Keeps h)
    (hvalues : ∀ v ∈ values, Formed P c h v) :
    Formed P c (h.newArray values.toArray).2 (.array (h.newArray values.toArray).1) ∧
      ¬ c.Has (.array (h.newArray values.toArray).1) := by
  have hnew : ¬ c.Has (.array (h.newArray values.toArray).1) := by
    intro hhas
    have hlt := hch.lt_arrays hhas
    simp [Heap.newArray] at hlt
  refine ⟨.intro (by simp [Heap.Has, Heap.newArray]) (fun hc => absurd hc hnew)
    (fun _ h => by cases h) fun w hw => ?_, hnew⟩
  rw [Heap.Holds, Heap.held, Heap.items_newArray_self, List.toList_toArray] at hw
  exact (hvalues w hw).of_keeps (h.keeps_newArray _)

section

variable (hfilters : env.filters = []) (hlocals : env.locals = none)
  (hdata : b.Regular env.context)

include hfilters hlocals hdata

lemma formed_evalList {l : List Expr} (hl : ∀ e ∈ l, e.Composed)
    (ih : ∀ e ∈ l, ∀ {s t : Store σ} {v}, b.Keeps s.heap →
      runOn (e.eval lib env .read) s = some (.ok v, t) →
        Formed (ReflTransGen b.Refers env.context) s.heap t.heap v)
    (hs : b.Keeps s.heap) {values : List Value}
    (hrun : runOn (evalList lib env l) s = some (.ok values, t)) :
    s.heap.Keeps t.heap ∧
      ∀ v ∈ values, Formed (ReflTransGen b.Refers env.context) s.heap t.heap v := by
  induction l generalizing s values with
  | nil =>
    simp only [evalList] at hrun
    cases hrun
    exact ⟨.refl _, nofun⟩
  | cons e l ihl =>
    simp only [evalList] at hrun
    obtain ⟨v, u, hv, hrest⟩ := Compute.runOn_bind_ok_cases hrun
    obtain ⟨rest, t', hlist, hend⟩ := Compute.runOn_bind_ok_cases hrest
    cases hend
    have hsu := (hl e (.head _)).keeps hfilters hlocals hdata.complete hs hv
    obtain ⟨hut, hformed⟩ := ihl (fun e he => hl e (.tail _ he)) (fun e he => ih e (.tail _ he))
      (hs.trans hsu) hlist
    refine ⟨hsu.trans hut, ?_⟩
    rw [List.forall_mem_cons]
    exact ⟨(ih e (.head _) hs hv).of_keeps hut,
      fun w hw => (hformed w hw).of_later fun _ hhas => hsu.has hhas⟩

lemma filled_evalProperties {l : List (PropertyKey × Expr)} (hl : ∀ x ∈ l, x.2.Composed)
    (ih : ∀ x ∈ l, ∀ {s t : Store σ} {v}, b.Keeps s.heap →
      runOn (x.2.eval lib env .read) s = some (.ok v, t) →
        Formed (ReflTransGen b.Refers env.context) s.heap t.heap v)
    {o : ℕ} (hbc : b.Keeps c) (hnew : ¬ c.Has (.object o)) (hcs : c.Keeps s.heap) {c' : Heap}
    (hc' : ∀ w, c'.Has w → s.heap.Has w) (ho' : c'.Has (.object o))
    (ho : Filled (ReflTransGen b.Refers env.context) c' s.heap o) {x : Unit}
    (hrun : runOn (evalProperties lib env o l) s = some (.ok x, t)) :
    c.Keeps t.heap ∧ Filled (ReflTransGen b.Refers env.context) c' t.heap o := by
  induction l generalizing s with
  | nil =>
    simp only [evalProperties] at hrun
    cases hrun
    exact ⟨hcs, ho⟩
  | cons y l ihl =>
    obtain ⟨key, e⟩ := y
    simp only [evalProperties] at hrun
    obtain ⟨v, u, hv, hrest⟩ := Compute.runOn_bind_ok_cases hrun
    rw [Compute.runOn_bind_of_ok (Store.runOn_changing _ u)] at hrest
    have hbs := hbc.trans hcs
    have hsu := (hl _ (.head _)).keeps hfilters hlocals hdata.complete hbs hv
    have hformed := (ih _ (.head _) hbs hv).of_later hc'
    have hunreached : ¬ ReflTransGen b.Refers env.context (.object o) := fun hreach =>
      hnew (hbc.has (hdata.complete _ hreach))
    have hsetOwn := (ho.of_keeps hsu).setOwn ho' hunreached key.text hformed
    have hle : c.objects.size ≤ o := Nat.le_of_not_lt hnew
    refine ihl (fun x hx => hl x (.tail _ hx)) (fun x hx => ih x (.tail _ hx))
      ((hcs.trans hsu).setOwn hle key.text v) (fun w hw => ?_) hsetOwn hrest
    exact (hsu.has (hc' w hw)).setOwn o key.text v

/-- The value of a composed expression is well formed. -/
theorem Composed.formed (he : e.Composed) (hs : b.Keeps s.heap)
    (hrun : runOn (e.eval lib env .read) s = some (.ok v, t)) :
    Formed (ReflTransGen b.Refers env.context) s.heap t.heap v := by
  induction he generalizing s t v with
  | literal l =>
    simp only [eval] at hrun
    cases hrun
    cases l <;> exact .of_isAtom trivial
  | path he =>
    obtain ⟨r, hreads, hr⟩ := he.reads lib hlocals s
    cases hrun.symm.trans hreads
    rcases hr v rfl with hatom | hreach
    · exact .of_isAtom hatom
    · exact hdata.formed hs (hdata.complete.reaches hs hreach)
  | array hitems ih =>
    simp only [eval] at hrun
    obtain ⟨values, u, hlist, hrest⟩ := Compute.runOn_bind_ok_cases hrun
    obtain ⟨hsu, hvalues⟩ := formed_evalList hfilters hlocals hdata hitems ih hs hlist
    rw [Compute.runOn_bind_of_ok (Store.runOn_making _ u)] at hrest
    cases hrest
    exact (formed_newArray hsu hvalues).1
  | object hproperties ih =>
    simp only [eval] at hrun
    rw [Compute.runOn_bind_of_ok (Store.runOn_making _ s)] at hrun
    obtain ⟨x, u, hfill, hrest⟩ := Compute.runOn_bind_ok_cases hrun
    cases hrest
    have hgrown := s.heap.keeps_newObject .empty none
    have hnew : ¬ s.heap.Has (.object (s.heap.newObject .empty none).1) := by
      simp [Heap.Has, Heap.newObject]
    have hmade : (s.heap.newObject .empty none).2.Has
        (.object (s.heap.newObject .empty none).1) := by
      simp [Heap.Has, Heap.newObject]
    have hempty : (s.heap.newObject .empty none).2.record (s.heap.newObject .empty none).1 =
        .empty := Heap.record_newObject_self ..
    have hfilled : Filled (ReflTransGen b.Refers env.context) (s.heap.newObject .empty none).2
        (s.heap.newObject .empty none).2 (s.heap.newObject .empty none).1 :=
      ⟨hmade, by rw [hempty]; exact List.nodup_nil, fun hv => by rw [hempty] at hv; cases hv⟩
    obtain ⟨-, hfilled⟩ := filled_evalProperties hfilters hlocals hdata hproperties ih hs hnew
      hgrown (fun _ hw => hw) hmade hfilled hfill
    exact hfilled.formed_object hnew fun _ hw => hgrown.has hw
  | unary op _ ih =>
    simp only [eval] at hrun
    obtain ⟨w, u, -, hrest⟩ := Compute.runOn_bind_ok_cases hrun
    obtain ⟨x, hx, hend⟩ := Option.map_eq_some_iff.1 hrest
    cases hend
    exact .of_isAtom (Value.isAtom_of_plain (Heap.isContainer_of_unary hx))
  | binary op _ _ _ _ =>
    simp only [eval] at hrun
    obtain ⟨w, u, -, hrest⟩ := Compute.runOn_bind_ok_cases hrun
    obtain ⟨w', u', -, hrest⟩ := Compute.runOn_bind_ok_cases hrest
    obtain ⟨x, hx, hend⟩ := Option.map_eq_some_iff.1 hrest
    cases hend
    exact .of_isAtom (Value.isAtom_of_plain (Heap.isContainer_of_binary hx))

/-- A literal of an array or an object makes a fresh one. -/
lemma Composed.not_has (he : e.Composed)
    (hliteral : (∃ items, e = .array items) ∨ ∃ properties, e = .object properties)
    (hs : b.Keeps s.heap) (hrun : runOn (e.eval lib env .read) s = some (.ok v, t)) :
    ¬ s.heap.Has v := by
  rcases hliteral with ⟨items, rfl⟩ | ⟨properties, rfl⟩
  · have hitems : ∀ e ∈ items, e.Composed := by
      cases he with
      | path he => cases he
      | array hitems => exact hitems
    simp only [eval] at hrun
    obtain ⟨values, u, hlist, hrest⟩ := Compute.runOn_bind_ok_cases hrun
    obtain ⟨hsu, hvalues⟩ := formed_evalList hfilters hlocals hdata hitems
      (fun e he _ _ _ hs hrun => (hitems e he).formed hfilters hlocals hdata hs hrun) hs hlist
    rw [Compute.runOn_bind_of_ok (Store.runOn_making _ u)] at hrest
    cases hrest
    exact (formed_newArray hsu hvalues).2
  · simp only [eval] at hrun
    rw [Compute.runOn_bind_of_ok (Store.runOn_making _ s)] at hrun
    obtain ⟨x, u, -, hrest⟩ := Compute.runOn_bind_ok_cases hrun
    cases hrest
    simp [Heap.Has, Heap.newObject]

/-- Where a composed expression has a value, what is watched of it has one too. -/
lemma Composed.ok_of_mem_watched {stateful : String → Bool} (he : e.Composed)
    (hp : p ∈ (e.watch stateful).watched) (hs : b.Keeps s.heap)
    (hrun : runOn (e.eval lib env .read) s = some (.ok v, t)) :
    ∃ x, ∀ s' : Store σ, b.Keeps s'.heap →
      runOn (p.eval lib env .read) s' = some (.ok x, s') := by
  have hlib : ∀ name behaviour, env.filters.lookup name = some behaviour →
      lib.Spares b behaviour := by
    rw [hfilters]
    nofun
  obtain ⟨s₁, t₁, x, hs₁, hrun₁⟩ :=
    he.reads.exists_run_of_mem_watched (fun _ he => he.spares hlib) hp hs hrun
  exact ⟨x, fun s' hs' =>
    (he.isPath_of_mem_watched hp).again hfilters hlocals hdata.complete hs₁ hs' hrun₁⟩

end

end Expr

end DataBinding
