import DataBinding.Proofs.Formation
import DataBinding.Proofs.Freshness

/-!
# Evaluations that write alike

Two heaps correspond under a renaming.  What is read of containers that stand for each other is
matched, and so they can also be written alike: the heaps go on to correspond, under a renaming that
goes further by fresh containers only, and of all that was there nothing is written but what stands
for something (`Renaming.Evolves`).

`Mimics` says of two computations that they both have no end, or that they end alike and lead to
heaps that have evolved so.  It differs from `Mirrors` in that what was there before may be written,
and in that neither computation has the lead.
-/

namespace DataBinding

open Compute (runOn)

variable {σ α β γ δ : Type}

/-! ## Writing what has a property -/

namespace Heap

variable {P P' : Value → Prop} {h k m : Heap} {v : Value} {o p : ℕ} {key : String}

lemma lt_size_of_get? (hkey : ((h.record o).get? key).isSome = true) : o < h.objects.size := by
  by_contra ho
  rw [record, object, Array.getElem?_eq_none (not_lt.1 ho)] at hkey
  cases hkey

lemma lt_size_of_parent? (hp : h.parent? o = some p) : o < h.objects.size := by
  by_contra ho
  rw [parent?, proto, object, Array.getElem?_eq_none (not_lt.1 ho)] at hp
  cases hp

/-- Nothing is taken away, nothing is written that does not have the property, and objects keep
their keys and what they inherit from. -/
structure WritesOnly (P : Value → Prop) (h k : Heap) : Prop where
  has : ∀ {v}, h.Has v → k.Has v
  same : ∀ {v}, h.Has v → ¬ P v → h.SameAt k v
  keys : ∀ {o key}, ((h.record o).get? key).isSome = true → ((k.record o).get? key).isSome = true
  parents : ∀ {o p}, h.parent? o = some p → k.parent? o = some p

namespace WritesOnly

lemma refl (P : Value → Prop) (h : Heap) : WritesOnly P h h :=
  ⟨id, fun hv _ => sameAt_self hv, id, id⟩

lemma trans (hhk : WritesOnly P h k) (hkm : WritesOnly P' k m)
    (hP : ∀ v, h.Has v → P' v → P v) : WritesOnly P h m where
  has hv := hkm.has (hhk.has hv)
  same hv hnot := (hhk.same hv hnot).trans (hkm.same (hhk.has hv) fun hv' => hnot (hP _ hv hv'))
  keys hkey := hkm.keys (hhk.keys hkey)
  parents hp := hkm.parents (hhk.parents hp)

/-- Where all containers are kept nothing is written at all. -/
lemma of_keeps (hhk : h.Keeps k) : WritesOnly P h k where
  has hv := hhk.has hv
  same hv _ := hhk.sameAt hv
  keys hkey := by
    rwa [record, hhk.object_eq (lt_size_of_get? hkey)]
  parents hp := by
    rwa [parent?, proto, hhk.object_eq (lt_size_of_parent? hp)]

lemma setItems {a : ℕ} (ha : P (.array a)) (items : Array Value) :
    WritesOnly P h (h.setItems a items) where
  has {v} hv := by
    cases v with
    | array => simpa [Has, Heap.setItems] using hv
    | function f => cases f <;> exact hv
    | _ => exact hv
  same hv hnot := sameAt_setItems hv (by rintro rfl; exact hnot ha) items
  keys := id
  parents := id

lemma setOwn (ho : P (.object o)) (key : String) (x : Value) :
    WritesOnly P h (h.setOwn o key x) where
  has hv := Has.setOwn hv o key x
  same hv hnot := sameAt_setOwn hv (by rintro rfl; exact hnot ho) key x
  keys {p other} hkey := by
    by_cases hp : p = o
    · subst hp
      rw [Heap.setOwn, record_setRecord_self _ (lt_size_of_get? hkey)]
      by_cases hother : other = key
      · rw [hother, Record.get?_set_self]
        rfl
      · rwa [Record.get?_set_of_ne _ hother]
    · rwa [Heap.setOwn, record, object_setRecord_of_ne _ hp]
  parents hp := by
    rwa [parent?_setOwn]

/-- An object has the members that it had. -/
lemma hasMember (hhk : WritesOnly P h k) (hmember : h.hasMember (.object o) key = true) :
    k.hasMember (.object o) key = true := by
  change (h.find? key o).isSome = true at hmember
  change (k.find? key o).isSome = true
  induction o using Nat.strongRecOn with
  | ind o ih =>
    rw [find?_eq, Option.isSome_or, Bool.or_eq_true] at hmember ⊢
    refine hmember.imp hhk.keys fun hinherited => ?_
    cases hp : h.parent? o with
    | none =>
      rw [hp] at hinherited
      cases hinherited
    | some p =>
      have hlt : p < o := of_decide_eq_true (Option.filter_eq_some_iff.1 hp).2
      rw [hp, Option.bind_some] at hinherited
      rw [hhk.parents hp, Option.bind_some]
      exact ih p hlt hinherited

end WritesOnly

end Heap

/-! ## Heaps that evolve alike -/

namespace Renaming

variable {ρ ρ' ρ'' : Renaming} {h k h' k' h'' k'' : Heap} {a b o p : ℕ} {v w base base' : Value}

/-- From heaps that correspond under the one renaming to heaps that correspond under the other:
this goes further than the first one by fresh containers only, and in both heaps nothing was written
but what the first one renames. -/
structure Evolves (ρ : Renaming) (h k : Heap) (ρ' : Renaming) (h' k' : Heap) : Prop where
  le : ρ ≤ ρ'
  corresponds : ρ'.Corresponds h' k'
  fresh : ∀ {v w}, ρ'.Matches v w → ρ.Matches v w ∨ ¬ h.Has v ∧ ¬ k.Has w
  left : h.WritesOnly (fun v => ∃ w, ρ.Matches v w) h'
  right : k.WritesOnly (fun w => ∃ v, ρ.Matches v w) k'

namespace Evolves

lemma refl (hρ : ρ.Corresponds h k) : ρ.Evolves h k ρ h k :=
  ⟨le_rfl, hρ, .inl, .refl _ h, .refl _ k⟩

lemma trans (hevolves : ρ.Evolves h k ρ' h' k') (hevolves' : ρ'.Evolves h' k' ρ'' h'' k'') :
    ρ.Evolves h k ρ'' h'' k'' where
  le := hevolves.le.trans hevolves'.le
  corresponds := hevolves'.corresponds
  fresh hvw := by
    rcases hevolves'.fresh hvw with hvw | ⟨hv, hw⟩
    · exact hevolves.fresh hvw
    · exact .inr ⟨fun h => hv (hevolves.left.has h), fun h => hw (hevolves.right.has h)⟩
  left := hevolves.left.trans hevolves'.left fun v hv ⟨w, hvw⟩ =>
    ⟨w, (hevolves.fresh hvw).resolve_right fun hnot => hnot.1 hv⟩
  right := hevolves.right.trans hevolves'.right fun w hw ⟨v, hvw⟩ =>
    ⟨v, (hevolves.fresh hvw).resolve_right fun hnot => hnot.2 hw⟩

end Evolves

namespace Corresponds

variable (hρ : ρ.Corresponds h k)

include hρ

lemma evolves_newArray {xs ys : Array Value} (hxy : List.Forall₂ ρ.Matches xs.toList ys.toList) :
    ρ.Evolves h k (ρ.withArray h.arrays.size k.arrays.size) (h.newArray xs).2
      (k.newArray ys).2 where
  le := ρ.le_withArray _ _
  corresponds := hρ.newArray hxy
  fresh hvw := by
    cases hvw with
    | plain hv => exact .inl (.plain hv)
    | array hab =>
      rcases hab with hab | ⟨rfl, rfl⟩
      · exact .inl (.array hab)
      · exact .inr ⟨lt_irrefl _, lt_irrefl _⟩
    | object hop => exact .inl (.object hop)
    | intrinsic i => exact .inl (.intrinsic i)
    | made hf => exact .inl (.made hf)
  left := .of_keeps (h.keeps_newArray xs)
  right := .of_keeps (k.keeps_newArray ys)

lemma evolves_newObject :
    ρ.Evolves h k (ρ.withObject h.objects.size k.objects.size) (h.newObject .empty none).2
      (k.newObject .empty none).2 where
  le := ρ.le_withObject _ _
  corresponds := hρ.newObject
  fresh hvw := by
    cases hvw with
    | plain hv => exact .inl (.plain hv)
    | array hab => exact .inl (.array hab)
    | object hop =>
      rcases hop with hop | ⟨rfl, rfl⟩
      · exact .inl (.object hop)
      · exact .inr ⟨lt_irrefl _, lt_irrefl _⟩
    | intrinsic i => exact .inl (.intrinsic i)
    | made hf => exact .inl (.made hf)
  left := .of_keeps (h.keeps_newObject .empty none)
  right := .of_keeps (k.keeps_newObject .empty none)

lemma evolves_setOwn (hop : ρ.objects o p) (key : String) (hvw : ρ.Matches v w) :
    ρ.Evolves h k ρ (h.setOwn o key v) (k.setOwn p key w) where
  le := le_rfl
  corresponds := hρ.setOwn hop key hvw
  fresh := .inl
  left := .setOwn ⟨_, .object hop⟩ key v
  right := .setOwn ⟨_, .object hop⟩ key w

/-- Arrays that stand for each other get elements that stand for each other. -/
lemma setItems (hab : ρ.arrays a b) {xs ys : Array Value}
    (hxy : List.Forall₂ ρ.Matches xs.toList ys.toList) :
    ρ.Corresponds (h.setItems a xs) (k.setItems b ys) := by
  obtain ⟨ha, hb⟩ := hρ.array_lt hab
  exact
    { array_iff := hρ.array_iff
      object_iff := hρ.object_iff
      array_lt := fun hq => by simpa [Heap.setItems] using hρ.array_lt hq
      object_lt := hρ.object_lt
      function_lt := hρ.function_lt
      entries := hρ.entries
      parent := hρ.parent
      name := hρ.name
      items := by
        intro q q' hq
        by_cases hqa : q = a
        · obtain rfl := hqa
          obtain rfl := (hρ.array_iff hq hab).1 rfl
          rwa [Heap.items_setItems_self _ ha, Heap.items_setItems_self _ hb]
        · have hqb : q' ≠ b := fun h => hqa ((hρ.array_iff hq hab).2 h)
          rw [Heap.items_setItems_of_ne _ hqa, Heap.items_setItems_of_ne _ hqb]
          exact hρ.items hq }

lemma evolves_setItems (hab : ρ.arrays a b) {xs ys : Array Value}
    (hxy : List.Forall₂ ρ.Matches xs.toList ys.toList) :
    ρ.Evolves h k ρ (h.setItems a xs) (k.setItems b ys) where
  le := le_rfl
  corresponds := hρ.setItems hab hxy
  fresh := .inl
  left := .setItems ⟨_, .array hab⟩ xs
  right := .setItems ⟨_, .array hab⟩ ys

end Corresponds

/-! ### Writing a member -/

lemma forall₂_set {xs ys : List Value} (hxy : List.Forall₂ ρ.Matches xs ys)
    (hvw : ρ.Matches v w) (i : ℕ) : List.Forall₂ ρ.Matches (xs.set i v) (ys.set i w) := by
  induction hxy generalizing i with
  | nil => exact .nil
  | cons hhead htail ih =>
    cases i with
    | zero => exact .cons hvw htail
    | succ i => exact .cons hhead (ih i)

/-- Two arrays are filled up with undefined alike. -/
lemma forall₂_fill {xs ys : Array Value} (hxy : List.Forall₂ ρ.Matches xs.toList ys.toList)
    (n : ℕ) : List.Forall₂ ρ.Matches (xs ++ Array.replicate n Value.undefined).toList
      (ys ++ Array.replicate n Value.undefined).toList := by
  have hfill : List.Forall₂ ρ.Matches (List.replicate n Value.undefined)
      (List.replicate n Value.undefined) :=
    List.forall₂_same.2 fun v hv => by
      rw [List.eq_of_mem_replicate hv]
      exact .plain rfl
  simpa using List.rel_append hxy hfill

lemma resize_matches {xs ys : Array Value} (hxy : List.Forall₂ ρ.Matches xs.toList ys.toList)
    (n : ℕ) : Agree (fun xs ys => List.Forall₂ ρ.Matches xs.toList ys.toList) (resize xs n)
      (resize ys n) := by
  have hsize : xs.size = ys.size := by simpa using hxy.length_eq
  unfold resize
  rw [hsize]
  split
  · refine .ok ?_
    simpa using List.forall₂_take n hxy
  · split
    · exact .ok (forall₂_fill hxy _)
    · exact .error _

lemma writeItem_matches {xs ys : Array Value} (hxy : List.Forall₂ ρ.Matches xs.toList ys.toList)
    (i : ℕ) (hvw : ρ.Matches v w) :
    Agree (fun xs ys => List.Forall₂ ρ.Matches xs.toList ys.toList) (writeItem xs i v)
      (writeItem ys i w) := by
  have hsize : xs.size = ys.size := by simpa using hxy.length_eq
  unfold writeItem
  rw [hsize]
  split
  · refine .ok ?_
    simpa using forall₂_set hxy hvw i
  · split
    · refine .ok ?_
      rw [Array.toList_push, Array.toList_push]
      exact List.rel_append (forall₂_fill hxy _) (.cons hvw .nil)
    · exact .error _

/-- Members that stand for each other are written alike. -/
lemma Corresponds.evolves_setMember (hρ : ρ.Corresponds h k) (hbase : ρ.Matches base base')
    (key : String) (hvw : ρ.Matches v w) :
    Option.Rel (Agree fun h' k' => ρ.Evolves h k ρ h' k') (h.setMember base key v)
      (k.setMember base' key w) := by
  cases hbase with
  | @plain base hbase =>
    cases base with
    | array | object | function => cases hbase
    | undefined | null => exact .some (.error _)
    | bool | number | string => exact .some (.ok (.refl hρ))
  | intrinsic | made => exact .some (.ok (.refl hρ))
  | object hop => exact .some (.ok (hρ.evolves_setOwn hop key hvw))
  | @array a b hab =>
    have hitems : ∀ {x y : Except Error (Array Value)},
        Agree (fun xs ys => List.Forall₂ ρ.Matches xs.toList ys.toList) x y →
          Agree (fun h' k' => ρ.Evolves h k ρ h' k') (x.map (h.setItems a ·))
            (y.map (k.setItems b ·)) := by
      rintro x y (hxy | e)
      · exact .ok (hρ.evolves_setItems hab hxy)
      · exact .error e
    unfold Heap.setMember
    rw [hρ.readsAlike.toNumber_eq hvw]
    dsimp only
    split
    · cases k.toNumber w with
      | none => exact .none
      | some x =>
        refine .some ?_
        dsimp only
        split
        · exact hitems (resize_matches (hρ.items hab) _)
        · exact .ok (.refl hρ)
    · split
      · exact .some (hitems (writeItem_matches (hρ.items hab) _ hvw))
      · exact .some (.ok (.refl hρ))

end Renaming

/-! ## Computations that run alike -/

/-- From two stores both computations have no end, or they end with the same error or with results
that stand for each other, and the heaps have evolved alike. -/
def Mimics (Q : Renaming → α → β → Prop) (ρ : Renaming) (m : Compute (Store σ) α)
    (m' : Compute (Store σ) β) (s t : Store σ) : Prop :=
  Option.Rel (fun x y => ∃ ρ', ρ.Evolves s.heap t.heap ρ' x.2.heap y.2.heap ∧ Agree (Q ρ') x.1 y.1)
    (runOn m s) (runOn m' t)

namespace Mimics

variable {ρ ρ' : Renaming} {Q : Renaming → α → β → Prop} {Q' : Renaming → γ → δ → Prop}
  {m : Compute (Store σ) α} {m' : Compute (Store σ) β} {s t s' t' : Store σ}

lemma of_runs {r : Except Error α} {r' : Except Error β} (hrun : runOn m s = some (r, s'))
    (hrun' : runOn m' t = some (r', t')) (hevolves : ρ.Evolves s.heap t.heap ρ' s'.heap t'.heap)
    (hagree : Agree (Q ρ') r r') : Mimics Q ρ m m' s t := by
  rw [Mimics, hrun, hrun']
  exact .some ⟨ρ', hevolves, hagree⟩

section Steps

variable (hρ : ρ.Corresponds s.heap t.heap)

include hρ

lemma pure {x : α} {y : β} (hxy : Q ρ x y) :
    Mimics Q ρ (Pure.pure x : Compute (Store σ) α) (Pure.pure y) s t :=
  .of_runs rfl rfl (.refl hρ) (.ok hxy)

lemma throw (e : Error) : Mimics Q ρ (MonadExcept.throw e : Compute (Store σ) α)
    (MonadExcept.throw e) s t :=
  .of_runs rfl rfl (.refl hρ) (.error e)

lemma reading {f : Heap → α} {f' : Heap → β} (hf : Q ρ (f s.heap) (f' t.heap)) :
    Mimics Q ρ (Store.reading f : Compute (Store σ) α) (Store.reading f') s t :=
  .of_runs rfl rfl (.refl hρ) (.ok hf)

/-- A reading has an end in both heaps, and then the same result, or in neither. -/
lemma readingEndless {Q : Renaming → α → α → Prop} {f f' : Heap → Option α}
    (hf : f s.heap = f' t.heap) (hx : ∀ x, f s.heap = some x → Q ρ x x) :
    Mimics Q ρ (Store.readingEndless f : Compute (Store σ) α) (Store.readingEndless f') s t := by
  rw [Mimics, Store.runOn_readingEndless, Store.runOn_readingEndless, ← hf]
  cases hend : f s.heap with
  | none => exact .none
  | some x => exact .some ⟨ρ, .refl hρ, .ok (hx x hend)⟩

lemma newArray {xs ys : Array Value} (hxy : List.Forall₂ ρ.Matches xs.toList ys.toList) :
    Mimics (fun ρ' => ρ'.arrays) ρ (Store.making (·.newArray xs) : Compute (Store σ) ℕ)
      (Store.making (·.newArray ys)) s t :=
  .of_runs rfl rfl (hρ.evolves_newArray hxy) (.ok (.inr ⟨rfl, rfl⟩))

lemma newObject : Mimics (fun ρ' => ρ'.objects) ρ
    (Store.making (·.newObject .empty none) : Compute (Store σ) ℕ)
    (Store.making (·.newObject .empty none)) s t :=
  .of_runs rfl rfl hρ.evolves_newObject (.ok (.inr ⟨rfl, rfl⟩))

lemma setOwn {o p : ℕ} (hop : ρ.objects o p) (key : String) {v w : Value} (hvw : ρ.Matches v w) :
    Mimics (fun _ _ _ => True) ρ (Store.changing (·.setOwn o key v) : Compute (Store σ) Unit)
      (Store.changing (·.setOwn p key w)) s t :=
  .of_runs rfl rfl (hρ.evolves_setOwn hop key hvw) (.ok trivial)

lemma setMember {base base' v w : Value} (hbase : ρ.Matches base base') (key : String)
    (hvw : ρ.Matches v w) : Mimics (fun _ _ _ => True) ρ
      (Store.changingIf (·.setMember base key v) : Compute (Store σ) Unit)
      (Store.changingIf (·.setMember base' key w)) s t := by
  rw [Mimics, Store.runOn_changingIf, Store.runOn_changingIf]
  have hwrite := hρ.evolves_setMember hbase key hvw
  generalize s.heap.setMember base key v = x, t.heap.setMember base' key w = y at hwrite
  cases hwrite with
  | none => exact .none
  | some hagree =>
    refine .some ?_
    cases hagree with
    | ok hevolves => exact ⟨ρ, hevolves, .ok trivial⟩
    | error e => exact ⟨ρ, .refl hρ, .error e⟩

end Steps

/-- What follows has to run alike wherever the first steps have led. -/
lemma bind {f : α → Compute (Store σ) γ} {f' : β → Compute (Store σ) δ} (hm : Mimics Q ρ m m' s t)
    (hf : ∀ {ρ' s' t' x y}, ρ.Evolves s.heap t.heap ρ' s'.heap t'.heap → Q ρ' x y →
      Mimics Q' ρ' (f x) (f' y) s' t') : Mimics Q' ρ (m >>= f) (m' >>= f') s t := by
  rw [Mimics, Compute.runOn_bind, Compute.runOn_bind]
  rw [Mimics] at hm
  generalize runOn m s = x, runOn m' t = y at hm
  cases hm with
  | none => exact .none
  | @some x y hends =>
    obtain ⟨r, s'⟩ := x
    obtain ⟨r', t'⟩ := y
    obtain ⟨ρ', hevolves, hagree⟩ := hends
    cases hagree with
    | error e => exact .some ⟨ρ', hevolves, .error e⟩
    | @ok x y hxy =>
      have hrest := hf hevolves hxy
      rw [Mimics] at hrest
      dsimp only [Option.bind_some]
      generalize runOn (f x) s' = x, runOn (f' y) t' = y at hrest
      cases hrest with
      | none => exact .none
      | some hends =>
        obtain ⟨ρ'', hevolves', hagree⟩ := hends
        exact .some ⟨ρ'', hevolves.trans hevolves', hagree⟩

end Mimics

/-- The filter is a function of its arguments: for arguments that stand for each other it runs
alike, and what it yields stands for each other again.  It may write what stands for something; a
filter that writes nothing at all is one of these. -/
def Library.Functional (lib : Library σ) (behaviour : String) : Prop :=
  ∀ ρ (s t : Store σ) args args', ρ.Corresponds s.heap t.heap → List.Forall₂ ρ.Matches args args' →
    Mimics Renaming.Matches ρ (lib.filter behaviour args) (lib.filter behaviour args') s t

end DataBinding
