import DataBinding.Proofs.Simulation

/-!
# Values that keep their contents

A value is unchanged between two heaps if all that can be reached from it is the same in both
(`Heap.Unchanged`).  That makes a renaming that renames nothing, `Renaming.only`: the heaps
correspond under it, and whatever goes further does not rename these values, either.

That two values are the same says less.  It does not tell the two zeros apart
(`Value.eq_of_same`), and of a container it says nothing but that it is the same one.
-/

namespace DataBinding

open Relation (ReflTransGen)

/-! ## The same value -/

namespace Value

/-- The values are the two zeros. -/
def OppositeZeros (v w : Value) : Prop :=
  v = .number 0 ∧ w = .number (-0) ∨ v = .number (-0) ∧ w = .number 0

/-- The zeros are the only two values that are the same without being equal. -/
lemma eq_of_same {v w : Value} (hsame : v.same w = true) (hzeros : ¬ v.OppositeZeros w) :
    v = w := by
  cases v with
  | number x =>
    cases w with
    | number y =>
      rcases Bool.or_eq_true_iff.1 hsame with heq | hnan
      · obtain ⟨-, -, rfl | ⟨rfl, rfl⟩ | ⟨rfl, rfl⟩⟩ := Float.beq_iff_ne_nan_and_eq.1 heq
        · rfl
        · exact absurd (.inl ⟨rfl, rfl⟩) hzeros
        · exact absurd (.inr ⟨rfl, rfl⟩) hzeros
      · simp only [Float.isNaN_eq_decide_eq_nan, Bool.and_eq_true, decide_eq_true_eq] at hnan
        rw [hnan.1, hnan.2]
    | _ => cases hsame
  | undefined | null => cases w <;> first | rfl | cases hsame
  | bool | string | array | object | function =>
    cases w <;> first | cases hsame | rw [eq_of_beq hsame]

end Value

/-! ## The same contents -/

namespace Heap

variable {h k m : Heap} {v w : Value}

/-- The container or function of that reference is in both heaps and is the same there. -/
def SameAt (h k : Heap) : Value → Prop
  | .array a => ∃ items, h.arrays[a]? = some items ∧ k.arrays[a]? = some items
  | .object o => ∃ object, h.objects[o]? = some object ∧ k.objects[o]? = some object
  | .function (.made f) => ∃ closure, h.closures[f]? = some closure ∧ k.closures[f]? = some closure
  | _ => True

/-- The first value is a container that holds the second one, or an object that inherits from it. -/
def Refers (h : Heap) (v w : Value) : Prop :=
  h.Holds v w ∨ ∃ o p, v = .object o ∧ h.parent? o = some p ∧ w = .object p

/-- All that can be reached from the value is the same in both heaps. -/
def Unchanged (h k : Heap) (v : Value) : Prop := ∀ w, ReflTransGen h.Refers v w → h.SameAt k w

lemma Unchanged.of_refers (hv : h.Unchanged k v) (hvw : h.Refers v w) : h.Unchanged k w :=
  fun _ hw => hv _ (.head hvw hw)

/-- What is no container refers to nothing. -/
lemma unchanged_of_plain (hv : v.isContainer = false) : h.Unchanged k v := by
  intro w hw
  rcases hw.cases_head with rfl | ⟨u, hu | ⟨o, p, rfl, -⟩, -⟩
  · cases v with
    | array | object | function => cases hv
    | _ => trivial
  · cases v with
    | array | object | function => cases hv
    | _ => cases hu
  · cases hv

/-- The heap has what the value refers to. -/
def Has (h : Heap) : Value → Prop
  | .array a => a < h.arrays.size
  | .object o => o < h.objects.size
  | .function (.made f) => f < h.closures.size
  | _ => True

/-- The heap has what any of its containers refers to. -/
def Closed (h : Heap) : Prop := ∀ v w, h.Holds v w → h.Has w

lemma Closed.has_of_refers (hh : h.Closed) (hv : h.Has v) (hvw : h.Refers v w) : h.Has w := by
  rcases hvw with hvw | ⟨o, p, rfl, hp, rfl⟩
  · exact hh _ _ hvw
  · have hlt : p < o := by simpa using (Option.filter_eq_some_iff.1 hp).2
    exact hlt.trans hv

lemma SameAt.has (hv : h.SameAt k v) : h.Has v := by
  cases v with
  | array | object =>
    obtain ⟨_, h, -⟩ := hv
    exact (Array.getElem?_eq_some_iff.1 h).1
  | function f =>
    cases f with
    | intrinsic => trivial
    | made =>
      obtain ⟨_, h, -⟩ := hv
      exact (Array.getElem?_eq_some_iff.1 h).1
  | _ => trivial

lemma SameAt.symm (hv : h.SameAt k v) : k.SameAt h v := by
  cases v with
  | array | object => exact hv.imp fun _ => And.symm
  | function f =>
    cases f with
    | intrinsic => trivial
    | made => exact hv.imp fun _ => And.symm
  | _ => trivial

lemma SameAt.trans (hv : h.SameAt k v) (hv' : k.SameAt m v) : h.SameAt m v := by
  have hboth : ∀ {α : Type} {x y z : Option α}, (∃ a, x = some a ∧ y = some a) →
      (∃ a, y = some a ∧ z = some a) → ∃ a, x = some a ∧ z = some a := by
    rintro α x y z ⟨a, hx, hy⟩ ⟨b, hy', hz⟩
    exact ⟨a, hx, hz.trans (hy'.symm.trans hy)⟩
  cases v with
  | array | object => exact hboth hv hv'
  | function f =>
    cases f with
    | intrinsic => trivial
    | made => exact hboth hv hv'
  | _ => trivial

lemma SameAt.refers (hv : h.SameAt k v) (hvw : k.Refers v w) : h.Refers v w := by
  rcases hvw with hvw | ⟨o, p, rfl, hp, rfl⟩
  · refine .inl ?_
    cases v with
    | array a =>
      obtain ⟨items, hh, hk⟩ := hv
      simpa [Holds, held, Heap.items, hh, hk] using hvw
    | object o =>
      obtain ⟨object, hh, hk⟩ := hv
      simpa [Holds, held, Heap.record, Heap.object, hh, hk] using hvw
    | _ => cases hvw
  · obtain ⟨object, hh, hk⟩ := hv
    refine .inr ⟨o, p, rfl, ?_, rfl⟩
    simpa [parent?, proto, Heap.object, hh, hk] using hp

lemma Unchanged.symm (hv : h.Unchanged k v) : k.Unchanged h v := by
  intro w hw
  have hunchanged : h.Unchanged k w := by
    induction hw with
    | refl => exact hv
    | tail _ hstep ih => exact ih.of_refers ((ih _ .refl).refers hstep)
  exact (hunchanged _ .refl).symm

lemma SameAt.items_eq {a : ℕ} (ha : h.SameAt k (.array a)) : h.items a = k.items a := by
  obtain ⟨items, hh, hk⟩ := ha
  rw [Heap.items, hh, Heap.items, hk]

lemma SameAt.object_eq {o : ℕ} (ho : h.SameAt k (.object o)) : h.object o = k.object o := by
  obtain ⟨object, hh, hk⟩ := ho
  rw [Heap.object, hh, Heap.object, hk]

lemma SameAt.functionName_eq {f : ℕ} (hf : h.SameAt k (.function (.made f))) :
    h.functionName (.made f) = k.functionName (.made f) := by
  obtain ⟨closure, hh, hk⟩ := hf
  rw [functionName, closure?, hh, functionName, closure?, hk]

/-- What grows keeps what it has. -/
lemma Keeps.sameAt (hhk : h.Keeps k) (hv : h.Has v) : h.SameAt k v := by
  have hboth : ∀ {α : Type} {xs ys : Array α} {i : ℕ}, i < xs.size → ys[i]? = xs[i]? →
      ∃ x, xs[i]? = some x ∧ ys[i]? = some x := fun {_ xs _ i} hi heq =>
    ⟨xs[i], Array.getElem?_eq_getElem hi, heq.trans (Array.getElem?_eq_getElem hi)⟩
  cases v with
  | array => exact hboth hv (hhk.arrays hv)
  | object => exact hboth hv (hhk.objects hv)
  | function f =>
    cases f with
    | intrinsic => trivial
    | made => exact hboth hv (hhk.closures hv)
  | _ => trivial

end Heap

/-! ## Renaming nothing -/

namespace Renaming

variable {P : Value → Prop} {h k : Heap} {v w : Value} {ρ : Renaming}

/-- The renaming that renames nothing, of the values with a property. -/
def only (P : Value → Prop) : Renaming where
  arrays a b := a = b ∧ P (.array a)
  objects o p := o = p ∧ P (.object o)
  functions f := P (.function (.made f))

lemma matches_only (hv : P v) : (only P).Matches v v := by
  cases v with
  | array => exact .array ⟨rfl, hv⟩
  | object => exact .object ⟨rfl, hv⟩
  | function f =>
    cases f with
    | intrinsic i => exact .intrinsic i
    | made => exact .made hv
  | _ => exact .plain rfl

/-- Heaps correspond under it if all that can be reached from a value with the property is the same
in both. -/
lemma corresponds_only (hsame : ∀ v, P v → h.SameAt k v)
    (hrefers : ∀ v w, P v → h.Refers v w → P w) : (only P).Corresponds h k where
  array_iff := by
    rintro a _ a' _ ⟨rfl, -⟩ ⟨rfl, -⟩
    rfl
  object_iff := by
    rintro o _ o' _ ⟨rfl, -⟩ ⟨rfl, -⟩
    rfl
  array_lt := by
    rintro a _ ⟨rfl, ha⟩
    exact ⟨(hsame _ ha).has, (hsame _ ha).symm.has⟩
  object_lt := by
    rintro o _ ⟨rfl, ho⟩
    exact ⟨(hsame _ ho).has, (hsame _ ho).symm.has⟩
  function_lt hf := ⟨(hsame _ hf).has, (hsame _ hf).symm.has⟩
  items := by
    rintro a _ ⟨rfl, ha⟩
    rw [← (hsame _ ha).items_eq, List.forall₂_same]
    exact fun v hv => matches_only (hrefers _ _ ha (.inl hv))
  entries := by
    rintro o _ ⟨rfl, ho⟩
    rw [Heap.record, Heap.record, ← (hsame _ ho).object_eq, List.forall₂_same]
    exact fun x hx =>
      ⟨rfl, matches_only (hrefers _ _ ho (.inl (List.mem_map_of_mem (f := Prod.snd) hx)))⟩
  parent := by
    rintro o _ ⟨rfl, ho⟩
    have hparent : h.parent? o = k.parent? o := by
      rw [Heap.parent?, Heap.proto, (hsame _ ho).object_eq, Heap.parent?, Heap.proto]
    rw [← hparent]
    cases hp : h.parent? o with
    | none => exact .none
    | some p => exact .some ⟨rfl, hrefers _ _ ho (.inr ⟨o, p, rfl, hp, rfl⟩)⟩
  name hf := (hsame _ hf).functionName_eq

/-- Nothing is to be renamed of the values that are unchanged. -/
lemma corresponds_unchanged : (only (h.Unchanged k)).Corresponds h k :=
  corresponds_only (fun v hv => hv v .refl) fun _ _ => Heap.Unchanged.of_refers

/-- A renaming that goes further does not rename the values with the property, either. -/
lemma eq_of_matches (hρ : ρ.Corresponds h k) (hle : only P ≤ ρ) (hv : P v) (hvw : ρ.Matches v w) :
    v = w := by
  cases hvw with
  | plain | intrinsic | made => rfl
  | array hab => rw [(hρ.array_iff (hle.1 ⟨rfl, hv⟩) hab).1 rfl]
  | object hop => rw [(hρ.object_iff (hle.2.1 ⟨rfl, hv⟩) hop).1 rfl]

end Renaming

end DataBinding
