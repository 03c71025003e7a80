import DataBinding.Evaluation
import DataBinding.Proofs.Depth
import Mathlib.Data.List.Forall2
import Mathlib.Order.Defs.PartialOrder

/-!
# Renaming references

Two heaps may hold the same under different references.  A `Renaming` says which reference of the
one stands for which of the other; under it two values match (`Renaming.Matches`), and two heaps
correspond if references that stand for each other hold values that match
(`Renaming.Corresponds`).

What an expression can read of a value is the same then: its members match, and the operators, the
guards, the texts and the frozen forms agree.  Most of this needs less, namely that whatever is read
of references that stand for each other matches again (`Renaming.ReadsAlike`).
-/

namespace DataBinding

/-- Which references of one heap stand for which of another.  Functions keep their references. -/
structure Renaming where
  arrays : ℕ → ℕ → Prop
  objects : ℕ → ℕ → Prop
  functions : ℕ → Prop

namespace Heap

/-- The object that an object inherits from, if that is an older one. -/
def parent? (h : Heap) (o : ℕ) : Option ℕ := (h.proto o).filter (· < o)

lemma find?_eq (h : Heap) (key : String) (o : ℕ) :
    h.find? key o = ((h.record o).get? key).or ((h.parent? o).bind (h.find? key)) := by
  rw [find?, parent?]
  cases (h.record o).get? key with
  | some v => rfl
  | none =>
    cases h.proto o with
    | none => rfl
    | some p => by_cases hp : p < o <;> simp [Option.filter, hp]

variable {h : Heap} {v w x : Value}

lemma isContainer_of_unary {op : UnaryOp} (hw : h.unary op v = some w) : w.isContainer = false := by
  cases op with
  | plus | minus =>
    obtain ⟨_, -, rfl⟩ := Option.map_eq_some_iff.1 hw
    rfl
  | not =>
    cases hw
    rfl

lemma isContainer_of_arithmetic {f : Float → Float → Float}
    (hx : h.arithmetic f v w = some x) : x.isContainer = false := by
  obtain ⟨_, -, hx⟩ := Option.bind_eq_some_iff.1 hx
  obtain ⟨_, -, hx⟩ := Option.bind_eq_some_iff.1 hx
  cases hx
  rfl

lemma isContainer_of_comparison {onText : String → String → Bool} {onNumber : Float → Float → Bool}
    (hx : h.comparison onText onNumber v w = some x) : x.isContainer = false := by
  unfold Heap.comparison at hx
  split at hx
  · cases hx
    rfl
  · obtain ⟨_, -, hx⟩ := Option.bind_eq_some_iff.1 hx
    obtain ⟨_, -, hx⟩ := Option.bind_eq_some_iff.1 hx
    cases hx
    rfl

/-- Operators make no containers. -/
lemma isContainer_of_binary {op : BinaryOp} (hx : h.binary op v w = some x) :
    x.isContainer = false := by
  cases op with
  | add =>
    simp only [Heap.binary, Heap.sum] at hx
    split at hx
    · obtain ⟨_, -, hx⟩ := Option.bind_eq_some_iff.1 hx
      obtain ⟨_, -, hx⟩ := Option.bind_eq_some_iff.1 hx
      cases hx
      rfl
    · exact isContainer_of_arithmetic hx
  | sub | mul | div | rem => exact isContainer_of_arithmetic hx
  | eq | notEq =>
    obtain ⟨_, -, rfl⟩ := Option.map_eq_some_iff.1 hx
    rfl
  | strictEq | strictNotEq =>
    cases hx
    rfl
  | lt | gt | ltEq | gtEq => exact isContainer_of_comparison hx

/-- Containers are compared loosely as they are compared strictly. -/
lemma looseEqFlat_numeric (hv : (numeric v).isContainer = true) (w : Value) :
    looseEqFlat (numeric v) (numeric w) = v.strictEq w := by
  cases v with
  | array | object | function => cases w <;> rfl
  | _ => cases hv

end Heap

namespace Renaming

/-- Another renaming goes further if it renames alike what the first one renames. -/
instance : Preorder Renaming where
  le ρ ρ' := (∀ {a b}, ρ.arrays a b → ρ'.arrays a b) ∧ (∀ {o p}, ρ.objects o p → ρ'.objects o p) ∧
    ∀ {f}, ρ.functions f → ρ'.functions f
  le_refl _ := ⟨id, id, id⟩
  le_trans _ _ _ h₁ h₂ := ⟨h₂.1 ∘ h₁.1, h₂.2.1 ∘ h₁.2.1, h₂.2.2 ∘ h₁.2.2⟩

/-- Values of two heaps that stand for each other. -/
inductive Matches (ρ : Renaming) : Value → Value → Prop
  | plain {v : Value} (hv : v.isContainer = false) : Matches ρ v v
  | array {a b : ℕ} (h : ρ.arrays a b) : Matches ρ (.array a) (.array b)
  | object {o p : ℕ} (h : ρ.objects o p) : Matches ρ (.object o) (.object p)
  | intrinsic (i : Intrinsic) : Matches ρ (.function (.intrinsic i)) (.function (.intrinsic i))
  | made {f : ℕ} (h : ρ.functions f) : Matches ρ (.function (.made f)) (.function (.made f))

/-- Properties of the same name whose values stand for each other. -/
def MatchesEntry (ρ : Renaming) (x y : String × Value) : Prop := x.1 = y.1 ∧ ρ.Matches x.2 y.2

/-- References that stand for each other hold the same in the two heaps, and no reference stands for
two others. -/
structure Corresponds (ρ : Renaming) (h k : Heap) : Prop where
  array_iff : ∀ {a b a' b'}, ρ.arrays a b → ρ.arrays a' b' → (a = a' ↔ b = b')
  object_iff : ∀ {o p o' p'}, ρ.objects o p → ρ.objects o' p' → (o = o' ↔ p = p')
  array_lt : ∀ {a b}, ρ.arrays a b → a < h.arrays.size ∧ b < k.arrays.size
  object_lt : ∀ {o p}, ρ.objects o p → o < h.objects.size ∧ p < k.objects.size
  function_lt : ∀ {f}, ρ.functions f → f < h.closures.size ∧ f < k.closures.size
  items : ∀ {a b}, ρ.arrays a b → List.Forall₂ ρ.Matches (h.items a).toList (k.items b).toList
  entries : ∀ {o p}, ρ.objects o p →
    List.Forall₂ ρ.MatchesEntry (h.record o).entries (k.record p).entries
  parent : ∀ {o p}, ρ.objects o p → Option.Rel ρ.objects (h.parent? o) (k.parent? p)
  name : ∀ {f}, ρ.functions f → h.functionName (.made f) = k.functionName (.made f)

/-- What can be read of references that stand for each other stands for each other, too. -/
structure ReadsAlike (ρ : Renaming) (h k : Heap) : Prop where
  items : ∀ {a b}, ρ.arrays a b → List.Forall₂ ρ.Matches (h.items a).toList (k.items b).toList
  get : ∀ {o p}, ρ.objects o p → ∀ key, ρ.Matches (h.get o key) (k.get p key)
  name : ∀ {f}, ρ.functions f → h.functionName (.made f) = k.functionName (.made f)

variable {ρ ρ' : Renaming} {h k : Heap} {v v' w w' : Value}

/-! ## What depends on the values alone -/

namespace Matches

lemma mono (hv : ρ.Matches v v') (hle : ρ ≤ ρ') : ρ'.Matches v v' := by
  cases hv with
  | plain hv => exact .plain hv
  | array h => exact .array (hle.1 h)
  | object h => exact .object (hle.2.1 h)
  | intrinsic i => exact .intrinsic i
  | made h => exact .made (hle.2.2 h)

lemma truthy_eq (hv : ρ.Matches v v') : v.truthy = v'.truthy := by cases hv <;> rfl

lemma isUndefined_eq (hv : ρ.Matches v v') : v.isUndefined = v'.isUndefined := by cases hv <;> rfl

lemma isNullish_eq (hv : ρ.Matches v v') : v.isNullish = v'.isNullish := by cases hv <;> rfl

lemma isContainer_eq (hv : ρ.Matches v v') : v.isContainer = v'.isContainer := by cases hv <;> rfl

lemma joinsAsText_eq (hv : ρ.Matches v v') : v.joinsAsText = v'.joinsAsText := by cases hv <;> rfl

lemma eq_of_plain (hv : ρ.Matches v v') (hplain : v.isContainer = false) : v = v' := by
  cases hv with
  | plain => rfl
  | array | object | intrinsic | made => cases hplain

lemma numeric (hv : ρ.Matches v v') : ρ.Matches (Heap.numeric v) (Heap.numeric v') := by
  cases hv with
  | @plain v hv => cases v <;> exact .plain (by first | rfl | exact hv)
  | array h => exact .array h
  | object h => exact .object h
  | intrinsic i => exact .intrinsic i
  | made h => exact .made h

lemma orZero (hv : ρ.Matches v v') : ρ.Matches v.orZero v'.orZero := by
  unfold Value.orZero Value.ifDefined
  rw [hv.isUndefined_eq]
  split
  · exact .plain rfl
  · exact hv

lemma strictEq_eq (hρ : ρ.Corresponds h k) (hv : ρ.Matches v v') (hw : ρ.Matches w w') :
    v.strictEq w = v'.strictEq w' := by
  cases hv with
  | @plain v hv =>
    cases hw with
    | plain => rfl
    | array | object | intrinsic | made => cases v <;> first | rfl | cases hv
  | array hv =>
    cases hw with
    | array hw => exact Bool.eq_iff_iff.2 (by simp [Value.strictEq, hρ.array_iff hv hw])
    | @plain w hw => cases w <;> first | rfl | cases hw
    | object | intrinsic | made => rfl
  | object hv =>
    cases hw with
    | object hw => exact Bool.eq_iff_iff.2 (by simp [Value.strictEq, hρ.object_iff hv hw])
    | @plain w hw => cases w <;> first | rfl | cases hw
    | array | intrinsic | made => rfl
  | intrinsic | made =>
    cases hw with
    | @plain w => cases w <;> rfl
    | array | object | intrinsic | made => rfl

/-- Two operands and those that stand for them are equal, unless there is a container on both
sides. -/
lemma eq_or_isContainer (hv : ρ.Matches v v') (hw : ρ.Matches w w') : v = v' ∧ w = w' ∨
    (v.isContainer || w.isContainer) = true ∧ (v'.isContainer || w'.isContainer) = true := by
  cases hplain : v.isContainer || w.isContainer with
  | false =>
    obtain ⟨hleft, hright⟩ := Bool.or_eq_false_iff.1 hplain
    exact .inl ⟨hv.eq_of_plain hleft, hw.eq_of_plain hright⟩
  | true => exact .inr ⟨rfl, by rw [← hv.isContainer_eq, ← hw.isContainer_eq, hplain]⟩

/-- Two values of the one heap are the same just if the values that stand for them are. -/
lemma same_eq (hρ : ρ.Corresponds h k) (hv : ρ.Matches v v') (hw : ρ.Matches w w') :
    v.same w = v'.same w' := by
  have hsame : ∀ {x y : Value}, (x.isContainer || y.isContainer) = true →
      x.same y = x.strictEq y := by
    intro x y hxy
    cases x <;> cases y <;> first | rfl | cases hxy
  rcases hv.eq_or_isContainer hw with ⟨rfl, rfl⟩ | ⟨hleft, hright⟩
  · rfl
  · rw [hsame hleft, hsame hright, strictEq_eq hρ hv hw]

end Matches

lemma matchesEntry_mono {x y : String × Value} (hxy : ρ.MatchesEntry x y) (hle : ρ ≤ ρ') :
    ρ'.MatchesEntry x y := ⟨hxy.1, hxy.2.mono hle⟩

/-! ## Members -/

/-- Where the names are the same in the same order and their values are related, so is what is
looked up. -/
lemma lookup_rel {R : Value → Value → Prop} {xs ys : List (String × Value)}
    (hxy : List.Forall₂ (fun x y => x.1 = y.1 ∧ R x.2 y.2) xs ys) (key : String) :
    Option.Rel R (xs.lookup key) (ys.lookup key) := by
  induction hxy with
  | nil => exact .none
  | @cons x y xs ys hxy _ ih =>
    obtain ⟨name, v⟩ := x
    obtain ⟨name', w⟩ := y
    obtain ⟨rfl, hvw⟩ := hxy
    by_cases hkey : key = name
    · simpa [List.lookup_cons, hkey] using Option.Rel.some hvw
    · simpa [List.lookup_cons, beq_false_of_ne hkey] using ih

/-- The same is true of what is written under one name. -/
lemma setEntry_rel {R : Value → Value → Prop} {xs ys : List (String × Value)}
    (hxy : List.Forall₂ (fun x y => x.1 = y.1 ∧ R x.2 y.2) xs ys) (key : String) {v w : Value}
    (hvw : R v w) : List.Forall₂ (fun x y => x.1 = y.1 ∧ R x.2 y.2) (Record.setEntry key v xs)
      (Record.setEntry key w ys) := by
  induction hxy with
  | nil => exact .cons ⟨rfl, hvw⟩ .nil
  | @cons x y xs ys hxy hrest ih =>
    obtain ⟨name, v'⟩ := x
    obtain ⟨name', w'⟩ := y
    obtain ⟨rfl, hvw'⟩ := hxy
    by_cases hkey : name = key
    · simpa [Record.setEntry, hkey] using ⟨hvw, hrest⟩
    · simpa [Record.setEntry, hkey] using ⟨hvw', ih⟩

lemma getD_matches {x y : Option Value} (hxy : Option.Rel ρ.Matches x y) :
    ρ.Matches (x.getD .undefined) (y.getD .undefined) := by
  cases hxy with
  | none => exact .plain rfl
  | some hvw => exact hvw

lemma getElem?_matches {xs ys : List Value} (hxy : List.Forall₂ ρ.Matches xs ys) (i : ℕ) :
    Option.Rel ρ.Matches xs[i]? ys[i]? := by
  induction hxy generalizing i with
  | nil => exact .none
  | cons hvw _ ih =>
    cases i with
    | zero => exact .some hvw
    | succ i => exact ih i

lemma mapM_eq_of_forall₂ {α β γ : Type} {R : α → β → Prop} {f : α → Option γ} {g : β → Option γ}
    {l : List α} {m : List β} (hlm : List.Forall₂ R l m)
    (hfg : ∀ a b, R a b → f a = g b) : l.mapM f = m.mapM g := by
  induction hlm with
  | nil => rfl
  | cons hab _ ih => rw [List.mapM_cons, List.mapM_cons, hfg _ _ hab, ih]

/-! ## Reading -/

namespace ReadsAlike

variable (hρ : ρ.ReadsAlike h k)

include hρ

lemma functionName_eq {f : Callable} (hf : ρ.Matches (.function f) (.function f)) :
    h.functionName f = k.functionName f := by
  cases hf with
  | plain hv => cases hv
  | intrinsic => rfl
  | made hf => exact hρ.name hf

lemma functionMember {f : Callable} (hf : ρ.Matches (.function f) (.function f)) (key : String) :
    ρ.Matches (h.functionMember f key) (k.functionMember f key) := by
  unfold Heap.functionMember
  split
  · exact .intrinsic _
  · split
    · exact .intrinsic _
    · split
      · exact .intrinsic _
      · split
        · rw [hρ.functionName_eq hf]
          exact .plain rfl
        · exact .plain rfl

/-- Members of values that stand for each other stand for each other. -/
lemma getMember (hv : ρ.Matches v v') (key : String) :
    ρ.Matches (h.getMember v key) (k.getMember v' key) := by
  cases hv with
  | @plain v hv =>
    cases v with
    | string s =>
      unfold Heap.getMember
      refine .plain ?_
      dsimp only
      split
      · rfl
      · cases indexOfKey? key with
        | none => rfl
        | some i => cases hi : s.toList[i]? <;> simp [hi, Value.isContainer]
    | array | object | function => cases hv
    | undefined | null | bool | number => exact .plain rfl
  | @array a b hab =>
    unfold Heap.getMember
    have hitems := hρ.items hab
    dsimp only
    split
    · have hsize : (h.items a).size = (k.items b).size := by simpa using hitems.length_eq
      rw [hsize]
      exact .plain rfl
    · refine getD_matches ?_
      cases indexOfKey? key with
      | none => exact .none
      | some i => simpa using getElem?_matches hitems i
  | object ho => exact hρ.get ho key
  | intrinsic i => exact hρ.functionMember (.intrinsic i) key
  | made hf => exact hρ.functionMember (.made hf) key

/-! ## Texts and numbers -/

lemma textWithin_eq (n : ℕ) (hv : ρ.Matches v v') : h.textWithin n v = k.textWithin n v' := by
  induction n generalizing v v' with
  | zero =>
    cases hv with
    | @plain v hv =>
      cases v with
      | function => cases hv
      | _ => rfl
    | array | object | intrinsic => rfl
    | made hf => simp only [Heap.textWithin, hρ.name hf]
  | succ n ih =>
    cases hv with
    | @plain v hv =>
      cases v with
      | array | function => cases hv
      | _ => rfl
    | object | intrinsic => rfl
    | made hf => simp only [Heap.textWithin, hρ.name hf]
    | array hab =>
      rw [Heap.textWithin_succ_array, Heap.textWithin_succ_array]
      refine congrArg _ (mapM_eq_of_forall₂ (hρ.items hab) fun v w hvw => ?_)
      rw [hvw.isNullish_eq, ih hvw]

/-- Values that stand for each other have the same text. -/
lemma text?_eq (hv : ρ.Matches v v') : h.text? v = k.text? v' := by
  rw [← Heap.textWithin_of_le (le_max_left _ (k.arrays.size + 1)),
    ← Heap.textWithin_of_le (le_max_right (h.arrays.size + 1) _)]
  exact hρ.textWithin_eq _ hv

lemma toNumber_eq (hv : ρ.Matches v v') : h.toNumber v = k.toNumber v' := by
  cases hv with
  | @plain v hv =>
    cases v with
    | array => cases hv
    | _ => rfl
  | array hab => simp only [Heap.toNumber, hρ.text?_eq (.array hab)]
  | object | intrinsic | made => rfl

/-! ## Operators -/

lemma arithmetic_eq (f : Float → Float → Float) (hv : ρ.Matches v v') (hw : ρ.Matches w w') :
    h.arithmetic f v w = k.arithmetic f v' w' := by
  simp only [Heap.arithmetic, hρ.toNumber_eq hv, hρ.toNumber_eq hw]

lemma sum_eq (hv : ρ.Matches v v') (hw : ρ.Matches w w') : h.sum v w = k.sum v' w' := by
  simp only [Heap.sum, hv.orZero.joinsAsText_eq, hw.orZero.joinsAsText_eq, hρ.text?_eq hv.orZero,
    hρ.text?_eq hw.orZero, hρ.arithmetic_eq _ hv.orZero hw.orZero]

lemma comparison_eq (onText : String → String → Bool) (onNumber : Float → Float → Bool)
    (hv : ρ.Matches v v') (hw : ρ.Matches w w') :
    h.comparison onText onNumber v w = k.comparison onText onNumber v' w' := by
  have hnumbers : ∀ (h : Heap) {x y : Value}, (x.isContainer || y.isContainer) = true →
      h.comparison onText onNumber x y =
        (h.toNumber x).bind fun m => (h.toNumber y).bind fun n => some (.bool (onNumber m n)) := by
    intro h x y hxy
    cases x <;> cases y <;> first | rfl | cases hxy
  rcases hv.eq_or_isContainer hw with ⟨rfl, rfl⟩ | ⟨hleft, hright⟩
  · unfold Heap.comparison
    split
    · rfl
    · rw [hρ.toNumber_eq hv, hρ.toNumber_eq hw]
  · rw [hnumbers h hleft, hnumbers k hright, hρ.toNumber_eq hv, hρ.toNumber_eq hw]

lemma looseEq?_eq (hv : ρ.Matches v v') (hw : ρ.Matches w w')
    (hstrict : v.strictEq w = v'.strictEq w') : h.looseEq? v w = k.looseEq? v' w' := by
  unfold Heap.looseEq?
  rw [hv.isNullish_eq, hw.isNullish_eq]
  split
  · rfl
  · dsimp only
    have hx := hv.numeric
    have hy := hw.numeric
    rw [hx.isContainer_eq, hy.isContainer_eq]
    cases hleft : (Heap.numeric v').isContainer <;> cases hright : (Heap.numeric w').isContainer
    · rw [hx.eq_of_plain (hx.isContainer_eq.trans hleft),
        hy.eq_of_plain (hy.isContainer_eq.trans hright)]
    · dsimp only
      rw [hρ.text?_eq hy, hx.eq_of_plain (hx.isContainer_eq.trans hleft)]
    · dsimp only
      rw [hρ.text?_eq hx, hy.eq_of_plain (hy.isContainer_eq.trans hright)]
    · dsimp only
      rw [Heap.looseEqFlat_numeric (hx.isContainer_eq.trans hleft),
        Heap.looseEqFlat_numeric hleft, hstrict]

lemma unary_eq (op : UnaryOp) (hv : ρ.Matches v v') : h.unary op v = k.unary op v' := by
  cases op with
  | plus | minus => simp only [Heap.unary, hρ.toNumber_eq hv.orZero]
  | not => simp only [Heap.unary, hv.truthy_eq]

/-- Operators yield the same for operands that stand for each other, if these are equal alike. -/
lemma binary_eq (op : BinaryOp) (hv : ρ.Matches v v') (hw : ρ.Matches w w')
    (hstrict : v.strictEq w = v'.strictEq w') : h.binary op v w = k.binary op v' w' := by
  cases op with
  | add => exact hρ.sum_eq hv hw
  | sub => exact hρ.arithmetic_eq _ hv.orZero hw.orZero
  | mul | div | rem => exact hρ.arithmetic_eq _ hv hw
  | eq | notEq => simp only [Heap.binary, hρ.looseEq?_eq hv hw hstrict]
  | strictEq | strictNotEq => simp only [Heap.binary, hstrict]
  | lt | gt | ltEq | gtEq => exact hρ.comparison_eq _ _ hv hw

/-- Values that stand for each other pass the guard alike, if the same of their members lead back to
them. -/
lemma forbidden?_eq (hv : ρ.Matches v v') (hown : ∀ {o p}, ρ.objects o p → ∀ key,
    h.isOwnMember o key = k.isOwnMember p key) : h.forbidden? v = k.forbidden? v' := by
  cases hv with
  | @plain v hv =>
    cases v with
    | array | object | function => cases hv
    | _ => rfl
  | array | made => rfl
  | intrinsic i => cases i <;> rfl
  | @object o p ho =>
    have hnode : h.looksLikeNode o = k.looksLikeNode p := by
      unfold Heap.looksLikeNode
      simp only [(hρ.get ho _).truthy_eq]
    unfold Heap.forbidden?
    simp only [hown ho, hnode]

end ReadsAlike

namespace Corresponds

variable (hρ : ρ.Corresponds h k)

include hρ

lemma find? {o p : ℕ} (ho : ρ.objects o p) (key : String) :
    Option.Rel ρ.Matches (h.find? key o) (k.find? key p) := by
  induction o using Nat.strongRecOn generalizing p with
  | ind o ih =>
    rw [Heap.find?_eq, Heap.find?_eq]
    have hown : Option.Rel ρ.Matches ((h.record o).get? key) ((k.record p).get? key) :=
      lookup_rel (hρ.entries ho) key
    have hparent := hρ.parent ho
    generalize (h.record o).get? key = x, (k.record p).get? key = y at hown
    cases hown with
    | some hvw => exact .some hvw
    | none =>
      have hlt : ∀ q, h.parent? o = some q → q < o := fun q hq => by
        simpa using (Option.filter_eq_some_iff.1 hq).2
      generalize h.parent? o = x, k.parent? p = y at hparent hlt
      cases hparent with
      | none => exact .none
      | @some q q' hq => exact ih q (hlt q rfl) hq

lemma get {o p : ℕ} (ho : ρ.objects o p) (key : String) :
    ρ.Matches (h.get o key) (k.get p key) := getD_matches (hρ.find? ho key)

lemma readsAlike : ρ.ReadsAlike h k := ⟨hρ.items, hρ.get, hρ.name⟩

lemma hasMember_eq (hv : ρ.Matches v v') (key : String) :
    h.hasMember v key = k.hasMember v' key := by
  cases hv with
  | @plain v hv =>
    cases v with
    | array | object | function => cases hv
    | _ => rfl
  | @array a b hab =>
    have hsize : (h.items a).size = (k.items b).size := by simpa using (hρ.items hab).length_eq
    simp only [Heap.hasMember, hsize]
  | @object o p ho =>
    have hfind := hρ.find? ho key
    unfold Heap.hasMember
    dsimp only
    generalize h.find? key o = x, k.find? key p = y at hfind
    cases hfind <;> rfl
  | intrinsic i =>
    have hmember := hρ.readsAlike.functionMember (.intrinsic i) key
    simp only [Heap.hasMember, Value.isDefined, hmember.isUndefined_eq]
  | made hf =>
    have hmember := hρ.readsAlike.functionMember (.made hf) key
    simp only [Heap.hasMember, Value.isDefined, hmember.isUndefined_eq]

/-- Values that stand for each other pass the guard alike. -/
lemma forbidden?_eq (hv : ρ.Matches v v') : h.forbidden? v = k.forbidden? v' := by
  refine hρ.readsAlike.forbidden?_eq hv fun hop key => ?_
  exact Matches.same_eq hρ (hρ.get hop key) (.object hop)

lemma binary_eq (op : BinaryOp) (hv : ρ.Matches v v') (hw : ρ.Matches w w') :
    h.binary op v w = k.binary op v' w' :=
  hρ.readsAlike.binary_eq op hv hw (Matches.strictEq_eq hρ hv hw)

/-! ## Frozen forms -/

lemma freezeWithin_eq (n : ℕ) (hv : ρ.Matches v v') :
    h.freezeWithin n v = k.freezeWithin n v' := by
  induction n generalizing v v' with
  | zero =>
    cases hv with
    | @plain v hv =>
      cases v with
      | array | object => cases hv
      | _ => rfl
    | array | object | intrinsic | made => rfl
  | succ n ih =>
    cases hv with
    | @plain v hv =>
      cases v with
      | array | object => cases hv
      | _ => rfl
    | intrinsic | made => rfl
    | array hab =>
      simp only [Heap.freezeWithin, mapM_eq_of_forall₂ (hρ.items hab) fun _ _ => ih]
    | object ho =>
      have hentries := mapM_eq_of_forall₂ (hρ.entries ho)
        (f := fun x => do return (x.1, ← h.freezeWithin n x.2))
        (g := fun x => do return (x.1, ← k.freezeWithin n x.2))
        fun x y hxy => by rw [hxy.1, ih hxy.2]
      rw [Heap.freezeWithin, Heap.freezeWithin]
      exact congrArg (· >>= fun entries => pure (Frozen.object entries)) hentries

/-- Values that stand for each other have the same frozen form. -/
theorem freeze?_eq (hv : ρ.Matches v v') : h.freeze? v = k.freeze? v' := by
  rw [← Heap.freezeWithin_of_le (le_max_left _ (k.containerCount + 1)),
    ← Heap.freezeWithin_of_le (le_max_right (h.containerCount + 1) _)]
  exact hρ.freezeWithin_eq _ hv

end Corresponds

/-- Values of two heaps have the same contents if they stand for each other under some renaming. -/
def SameContents (h k : Heap) (v w : Value) : Prop :=
  ∃ ρ : Renaming, ρ.Corresponds h k ∧ ρ.Matches v w

end Renaming

end DataBinding
