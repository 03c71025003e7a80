import DataBinding.Proofs.Contents
import DataBinding.Proofs.Conversions

/-!
# Deep equality

Two values of two heaps are deep-equal (`Heap.DeepEqual`) if they hold the same all the way down:
arrays of one length element by element, objects with the same names property by property, functions
if they are the same function, and all else if it is equal.  How often a container occurs in a value
makes no difference, nor does the order of the names; but a value that contains itself is deep-equal
to none.

This is a little finer than the comparison `Heap.deepEq?` of two values of one heap, which answers
that such values are equal (`Heap.DeepEqual.deepEq?_eq_true`).  That comparison lets pass two things
which can be told apart by reading: the two zeros, one divided by which is not the same, and objects
that inherit different members.
-/

namespace DataBinding

open Relation (ReflTransGen)

/-! ## Reading what is unchanged -/

/-- The value is no reference into a heap. -/
def Value.IsAtom : Value → Prop
  | .array _ | .object _ | .function (.made _) => False
  | _ => True

lemma Value.isAtom_of_plain {v : Value} (hv : v.isContainer = false) : v.IsAtom := by
  cases v with
  | array | object | function => cases hv
  | _ => trivial

namespace Heap

variable {h k h' k' : Heap} {v w : Value}

/-- What is no reference refers to nothing. -/
lemma not_refers_of_isAtom (hv : v.IsAtom) : ¬ h.Refers v w := by
  rintro (hvw | ⟨o, p, rfl, -, -⟩)
  · cases v with
    | array | object => exact hv
    | _ => cases hvw
  · exact hv

lemma eq_of_reaches_of_isAtom (hv : v.IsAtom) (hvw : ReflTransGen h.Refers v w) : w = v := by
  rcases hvw.cases_head with heq | ⟨u, hu, -⟩
  · exact heq.symm
  · exact absurd hu (not_refers_of_isAtom hv)

lemma unchanged_of_isAtom (hv : v.IsAtom) : h.Unchanged k v := by
  intro w hw
  obtain rfl := eq_of_reaches_of_isAtom hv hw
  cases w with
  | array | object => cases hv
  | function f =>
    cases f with
    | intrinsic => trivial
    | made => cases hv
  | _ => trivial

lemma mem_of_lookup {α : Type} {l : List (String × α)} {key : String} {x : α}
    (hx : l.lookup key = some x) : (key, x) ∈ l := by
  obtain ⟨before, after, rfl, -⟩ := List.lookup_eq_some_iff.1 hx
  exact List.mem_append_right _ (.head _)

lemma holds_of_get? {o : ℕ} {key : String} (hw : (h.record o).get? key = some w) :
    h.Holds (.object o) w :=
  List.mem_map_of_mem (f := Prod.snd) (mem_of_lookup hw)

lemma reaches_of_find? {o : ℕ} {key : String} (hw : h.find? key o = some w) :
    ReflTransGen h.Refers (.object o) w := by
  induction o using Nat.strongRecOn with
  | ind o ih =>
    rw [find?_eq] at hw
    rcases Option.or_eq_some_iff.1 hw with hown | ⟨-, hparent⟩
    · exact .single (.inl (holds_of_get? hown))
    · obtain ⟨p, hp, hw⟩ := Option.bind_eq_some_iff.1 hparent
      have hlt : p < o := by simpa using (Option.filter_eq_some_iff.1 hp).2
      exact .head (.inr ⟨o, p, rfl, hp, rfl⟩) (ih p hlt hw)

/-- A member can be reached from the value that it is read of, or it is no reference. -/
lemma reaches_getMember (h : Heap) (v : Value) (key : String) :
    (h.getMember v key).IsAtom ∨ ReflTransGen h.Refers v (h.getMember v key) := by
  cases v with
  | object o =>
    change (h.get o key).IsAtom ∨ ReflTransGen h.Refers _ (h.get o key)
    rw [get]
    cases hw : h.find? key o with
    | none => exact .inl trivial
    | some w => exact .inr (reaches_of_find? hw)
  | array a =>
    unfold getMember
    dsimp only
    split
    · exact .inl trivial
    · cases hw : (indexOfKey? key).bind fun i => (h.items a)[i]? with
      | none => exact .inl trivial
      | some w =>
        obtain ⟨i, -, hi⟩ := Option.bind_eq_some_iff.1 hw
        exact .inr (.single (.inl (Array.mem_toList_iff.2 (Array.mem_of_getElem? hi))))
  | string s =>
    unfold getMember
    dsimp only
    split
    · exact .inl trivial
    · cases hw : (indexOfKey? key).bind fun i => s.toList[i]?.map (Value.string ·.toString) with
      | none => exact .inl trivial
      | some w =>
        obtain ⟨i, -, hi⟩ := Option.bind_eq_some_iff.1 hw
        obtain ⟨c, -, rfl⟩ := Option.map_eq_some_iff.1 hi
        exact .inl trivial
  | function f =>
    change (h.functionMember f key).IsAtom ∨ _
    unfold functionMember
    refine .inl ?_
    split_ifs <;> trivial
  | _ => exact .inl trivial

lemma Unchanged.getMember (hv : h.Unchanged k v) (key : String) :
    h.Unchanged k (h.getMember v key) := by
  rcases h.reaches_getMember v key with hatom | hreach
  · exact unchanged_of_isAtom hatom
  · exact fun w hw => hv w (hreach.trans hw)

/-- The members of an object are read alike where it is unchanged. -/
lemma Unchanged.get_eq {o : ℕ} (ho : h.Unchanged k (.object o)) (key : String) :
    h.get o key = k.get o key := by
  have hmatches := Renaming.corresponds_unchanged.get (o := o) ⟨rfl, ho⟩ key
  exact Renaming.eq_of_matches Renaming.corresponds_unchanged le_rfl (ho.getMember key) hmatches

end Heap

/-! ## Deep equality -/

namespace Heap

variable {h k h' k' : Heap} {v w : Value}

/-- The values hold the same all the way down.  Of objects all members that can be read have to be
deep-equal, inherited ones as well. -/
inductive DeepEqual (h k : Heap) : Value → Value → Prop
  | plain {v : Value} (hv : v.isContainer = false) : DeepEqual h k v v
  | intrinsic (i : Intrinsic) :
    DeepEqual h k (.function (.intrinsic i)) (.function (.intrinsic i))
  | made {f : ℕ} (hf : h.SameAt k (.function (.made f))) :
    DeepEqual h k (.function (.made f)) (.function (.made f))
  | array {a b : ℕ} (hsize : (h.items a).size = (k.items b).size)
    (hitems : ∀ x ∈ (h.items a).toList.zip (k.items b).toList, DeepEqual h k x.1 x.2) :
    DeepEqual h k (.array a) (.array b)
  | object {o p : ℕ} (hsize : (h.record o).size = (k.record p).size)
    (hnames : ∀ x ∈ (h.record o).entries, (k.record p).has x.1 = true)
    (hown : ∀ x ∈ (h.record o).entries, ∀ w, (k.record p).get? x.1 = some w → DeepEqual h k x.2 w)
    (hmembers : ∀ key, DeepEqual h k (h.get o key) (k.get p key)) :
    DeepEqual h k (.object o) (.object p)

namespace DeepEqual

lemma of_eq_of_isAtom (hv : v.IsAtom) : h.DeepEqual k v v := by
  cases v with
  | array | object => cases hv
  | function f =>
    cases f with
    | intrinsic i => exact .intrinsic i
    | made => cases hv
  | _ => exact .plain rfl

/-- Values stay deep-equal where nothing of them changes. -/
lemma of_unchanged (hvw : h.DeepEqual k v w) (hv : h.Unchanged h' v) (hw : k.Unchanged k' w) :
    h'.DeepEqual k' v w := by
  induction hvw with
  | plain hplain => exact .plain hplain
  | intrinsic i => exact .intrinsic i
  | made hf =>
    obtain ⟨closure, hh, hk⟩ := hf
    obtain ⟨closure', hh₁, hh'⟩ := hv _ .refl
    obtain ⟨closure'', hk₁, hk'⟩ := hw _ .refl
    obtain rfl := Option.some.inj (hh.symm.trans hh₁)
    obtain rfl := Option.some.inj (hk.symm.trans hk₁)
    exact .made ⟨_, hh', hk'⟩
  | @array a b hsize hitems ih =>
    have ha := (hv _ .refl).items_eq
    have hb := (hw _ .refl).items_eq
    refine .array (ha ▸ hb ▸ hsize) fun x hx => ?_
    rw [← ha, ← hb] at hx
    exact ih x hx (hv.of_refers (.inl (List.of_mem_zip hx).1))
      (hw.of_refers (.inl (List.of_mem_zip hx).2))
  | @object o p hsize hnames hown hmembers ihown ihmembers =>
    have ho : h.record o = h'.record o := congrArg Object.record (hv _ .refl).object_eq
    have hp : k.record p = k'.record p := congrArg Object.record (hw _ .refl).object_eq
    refine .object (ho ▸ hp ▸ hsize) (ho ▸ hp ▸ hnames) (fun x hx u hu => ?_) fun key => ?_
    · rw [← ho] at hx
      rw [← hp] at hu
      exact ihown x hx u hu (hv.of_refers (.inl (List.mem_map_of_mem (f := Prod.snd) hx)))
        (hw.of_refers (.inl (holds_of_get? hu)))
    · rw [← hv.get_eq key, ← hw.get_eq key]
      exact ihmembers key (hv.getMember key) (hw.getMember key)

/-- No object that is deep-equal to another is a member of itself. -/
lemma get_ne_left (hvw : h.DeepEqual k v w) {o : ℕ} (ho : v = .object o) (key : String) :
    h.get o key ≠ .object o := by
  induction hvw generalizing o with
  | object _ _ _ _ _ ih =>
    cases ho
    exact fun hmember => ih key hmember hmember
  | plain hv =>
    subst ho
    cases hv
  | _ => cases ho

lemma get_ne_right (hvw : h.DeepEqual k v w) {p : ℕ} (hp : w = .object p) (key : String) :
    k.get p key ≠ .object p := by
  induction hvw generalizing p with
  | object _ _ _ _ _ ih =>
    cases hp
    exact fun hmember => ih key hmember hmember
  | plain hw =>
    subst hp
    cases hw
  | _ => cases hp

end DeepEqual

lemma isOwnMember_eq_false_of_ne {o : ℕ} {key : String} (hne : h.get o key ≠ .object o) :
    h.isOwnMember o key = false := by
  unfold isOwnMember
  cases hmember : h.get o key with
  | object q =>
    rw [hmember] at hne
    exact beq_false_of_ne fun heq => hne (heq ▸ rfl)
  | _ => rfl

end Heap

/-! ## Deep-equal values read alike -/

namespace Renaming

variable {h k : Heap} {v w : Value}

/-- References stand for each other if they are deep-equal. -/
def deep (h k : Heap) : Renaming where
  arrays a b := h.DeepEqual k (.array a) (.array b)
  objects o p := h.DeepEqual k (.object o) (.object p)
  functions f := h.DeepEqual k (.function (.made f)) (.function (.made f))

lemma matches_deep_iff : (deep h k).Matches v w ↔ h.DeepEqual k v w := by
  constructor
  · intro hvw
    cases hvw with
    | plain hv => exact .plain hv
    | intrinsic i => exact .intrinsic i
    | array h | object h | made h => exact h
  · intro hvw
    cases hvw with
    | plain hv => exact .plain hv
    | intrinsic i => exact .intrinsic i
    | made hf => exact .made (.made hf)
    | array hsize hitems => exact .array (.array hsize hitems)
    | object hsize hnames hown hmembers => exact .object (.object hsize hnames hown hmembers)

lemma readsAlike_deep : (deep h k).ReadsAlike h k where
  items {a b} hab := by
    have hab : h.DeepEqual k (.array a) (.array b) := hab
    cases hab with
    | plain hv => cases hv
    | array hsize hitems =>
      exact List.forall₂_iff_zip.2
        ⟨by simpa using hsize, fun hx => matches_deep_iff.2 (hitems _ hx)⟩
  get {o p} hop key := by
    have hop : h.DeepEqual k (.object o) (.object p) := hop
    cases hop with
    | plain hv => cases hv
    | object _ _ _ hmembers => exact matches_deep_iff.2 (hmembers key)
  name {f} hf := by
    have hf : h.DeepEqual k (.function (.made f)) (.function (.made f)) := hf
    cases hf with
    | plain hv => cases hv
    | made hf => exact hf.functionName_eq

end Renaming

namespace Heap.DeepEqual

open Renaming (matches_deep_iff readsAlike_deep)

variable {h k : Heap} {v w v' w' : Value}

lemma truthy_eq (hvw : h.DeepEqual k v w) : v.truthy = w.truthy :=
  (matches_deep_iff.2 hvw).truthy_eq

lemma isNullish_eq (hvw : h.DeepEqual k v w) : v.isNullish = w.isNullish :=
  (matches_deep_iff.2 hvw).isNullish_eq

lemma getMember (hvw : h.DeepEqual k v w) (key : String) :
    h.DeepEqual k (h.getMember v key) (k.getMember w key) :=
  matches_deep_iff.1 (readsAlike_deep.getMember (matches_deep_iff.2 hvw) key)

lemma text?_eq (hvw : h.DeepEqual k v w) : h.text? v = k.text? w :=
  readsAlike_deep.text?_eq (matches_deep_iff.2 hvw)

lemma toNumber_eq (hvw : h.DeepEqual k v w) : h.toNumber v = k.toNumber w :=
  readsAlike_deep.toNumber_eq (matches_deep_iff.2 hvw)

lemma unary_eq (op : UnaryOp) (hvw : h.DeepEqual k v w) : h.unary op v = k.unary op w :=
  readsAlike_deep.unary_eq op (matches_deep_iff.2 hvw)

lemma binary_eq (op : BinaryOp) (hvw : h.DeepEqual k v w) (hvw' : h.DeepEqual k v' w')
    (hstrict : v.strictEq v' = w.strictEq w') : h.binary op v v' = k.binary op w w' :=
  readsAlike_deep.binary_eq op (matches_deep_iff.2 hvw) (matches_deep_iff.2 hvw') hstrict

/-- Deep-equal values pass the guard alike. -/
lemma forbidden?_eq (hvw : h.DeepEqual k v w) : h.forbidden? v = k.forbidden? w := by
  refine readsAlike_deep.forbidden?_eq (matches_deep_iff.2 hvw) fun {o p} hop key => ?_
  have hop : h.DeepEqual k (.object o) (.object p) := hop
  rw [isOwnMember_eq_false_of_ne (hop.get_ne_left rfl key),
    isOwnMember_eq_false_of_ne (hop.get_ne_right rfl key)]

end Heap.DeepEqual

/-! ## What has an end -/

namespace Heap

variable {h k : Heap} {v w v' w' : Value}

/-- Nothing that is deep-equal to something lists itself. -/
lemma DeepEqual.not_loops (hvw : h.DeepEqual k v w) : ¬ Loops h.Lists v := by
  induction hvw with
  | @array a b hsize hitems ih =>
    intro hloops
    obtain ⟨x, ⟨a', ha, hx⟩, hloops⟩ := hloops.step
    cases ha
    obtain ⟨i, hi, rfl⟩ := List.mem_iff_getElem.1 hx
    have hlt : i < ((h.items a).toList.zip (k.items b).toList).length := by
      simp only [List.length_zip, Array.length_toList, ← hsize] at hi ⊢
      omega
    have hmem := List.getElem_mem hlt
    rw [List.getElem_zip] at hmem
    exact ih _ hmem hloops
  | plain hv =>
    intro hloops
    obtain ⟨x, ⟨a, rfl, -⟩, -⟩ := hloops.step
    cases hv
  | _ =>
    intro hloops
    obtain ⟨x, ⟨a, ha, -⟩, -⟩ := hloops.step
    cases ha

lemma DeepEqual.unary_ne_none (op : UnaryOp) (hvw : h.DeepEqual k v w) : h.unary op v ≠ none := by
  rw [Ne, unary_eq_none_iff]
  rintro ⟨x, hx, hloops⟩
  obtain rfl := UnaryOp.eq_of_mem_converted hx
  exact hvw.not_loops hloops

lemma DeepEqual.binary_ne_none (op : BinaryOp) (hvw : h.DeepEqual k v w)
    (hvw' : h.DeepEqual k v' w') : h.binary op v v' ≠ none := by
  rw [Ne, binary_eq_none_iff]
  rintro ⟨x, hx, hloops⟩
  rcases BinaryOp.eq_or_eq_of_mem_converted hx with rfl | rfl
  · exact hvw.not_loops hloops
  · exact hvw'.not_loops hloops

/-! ## Objects that are written out -/

/-- A name that occurs once is looked up as what it stands by. -/
lemma get?_of_mem_entries {r : Record Value} (hnodup : r.keys.Nodup) {x : String × Value}
    (hx : x ∈ r.entries) : r.get? x.1 = some x.2 := by
  obtain ⟨entries⟩ := r
  simp only [Record.keys, Record.get?] at hnodup ⊢
  induction entries with
  | nil => cases hx
  | cons y entries ih =>
    rw [List.map_cons, List.nodup_cons] at hnodup
    rcases List.mem_cons.1 hx with rfl | hx
    · exact List.lookup_cons_self
    · have hne : x.1 ≠ y.1 := fun heq => hnodup.1 (heq ▸ List.mem_map_of_mem hx)
      rw [List.lookup_cons, beq_false_of_ne hne]
      exact ih hnodup.2 hx

lemma nodup_keys_set {r : Record Value} (hnodup : r.keys.Nodup) (key : String) (v : Value) :
    (r.set key v).keys.Nodup := by
  by_cases hkey : key ∈ r.keys
  · rwa [r.keys_set_of_mem hkey]
  · rw [r.keys_set_of_notMem hkey, List.nodup_append]
    exact ⟨hnodup, List.nodup_singleton key, fun x hx y hy heq => hkey (by simp_all)⟩

/-- Objects that inherit nothing are deep-equal if they have the same names in the same order and
deep-equal values under these. -/
lemma DeepEqual.of_entries {o p : ℕ} (hnodup : (h.record o).keys.Nodup)
    (hentries : List.Forall₂ (fun x y => x.1 = y.1 ∧ h.DeepEqual k x.2 y.2) (h.record o).entries
      (k.record p).entries) (ho : h.parent? o = none) (hp : k.parent? p = none) :
    h.DeepEqual k (.object o) (.object p) := by
  have hlookup : ∀ key, Option.Rel (h.DeepEqual k) ((h.record o).get? key)
      ((k.record p).get? key) := Renaming.lookup_rel hentries
  have hown : ∀ x ∈ (h.record o).entries, ∃ w, (k.record p).get? x.1 = some w ∧
      h.DeepEqual k x.2 w := by
    intro x hx
    have hx' := hlookup x.1
    rw [get?_of_mem_entries hnodup hx] at hx'
    generalize (k.record p).get? x.1 = y at hx'
    cases hx' with
    | some hequal => exact ⟨_, rfl, hequal⟩
  refine .object hentries.length_eq (fun x hx => ?_) (fun x hx w hw => ?_) fun key => ?_
  · obtain ⟨w, hw, -⟩ := hown x hx
    rw [Record.has, hw]
    rfl
  · obtain ⟨w', hw', hequal⟩ := hown x hx
    cases hw.symm.trans hw'
    exact hequal
  · rw [get, get, find?_eq, find?_eq, ho, hp]
    have hkey := hlookup key
    generalize (h.record o).get? key = x, (k.record p).get? key = y at hkey
    cases hkey with
    | none => exact .plain rfl
    | some hequal => exact hequal

/-! ## The comparison of two values of one heap -/

variable {n : ℕ}

/-- Two pairs of values such that the second one is compared on the way of comparing the first. -/
inductive Compares (h : Heap) : Value × Value → Value × Value → Prop
  | items {a b : ℕ} {x : Value × Value} (hx : x ∈ (h.items a).toList.zip (h.items b).toList) :
    Compares h (.array a, .array b) x
  | entries {o p : ℕ} {x : String × Value} {w : Value} (hx : x ∈ (h.record o).entries)
    (hw : (h.record p).get? x.1 = some w) : Compares h (.object o, .object p) (x.2, w)

lemma Compares.mem {x y : Value × Value} (hxy : h.Compares x y) :
    x ∈ h.containers ×ˢ h.containers := by
  cases hxy with
  | items hx =>
    have hmem := List.of_mem_zip hx
    exact List.mem_product.2 ⟨Holds.mem_containers hmem.1, Holds.mem_containers hmem.2⟩
  | entries hx hw =>
    have hv := List.mem_map_of_mem (f := Prod.snd) hx
    exact List.mem_product.2 ⟨Holds.mem_containers hv, (holds_of_get? hw).mem_containers⟩

/-- Comparing deep-equal values has an end. -/
lemma DeepEqual.acc_compares (hvw : h.DeepEqual h v w) : Acc (flip h.Compares) (v, w) := by
  induction hvw with
  | array _ _ ih =>
    refine ⟨_, fun y hy => ?_⟩
    cases hy with
    | items hx => exact ih y hx
  | object _ _ _ _ ihown _ =>
    refine ⟨_, fun y hy => ?_⟩
    cases hy with
    | entries hx hw => exact ihown _ hx _ hw
  | plain hv =>
    refine ⟨_, fun y hy => ?_⟩
    cases hy <;> cases hv
  | intrinsic | made => exact ⟨_, fun y hy => nomatch hy⟩

lemma exists_of_allM_ne {α : Type} {f : α → Option Bool} {l : List α}
    (hne : l.allM f ≠ some true) : ∃ x ∈ l, f x ≠ some true := by
  contrapose! hne
  induction l with
  | nil => rfl
  | cons x l ih =>
    rw [List.forall_mem_cons] at hne
    simp only [List.allM, hne.1]
    exact ih hne.2

/-- Where the comparison of deep-equal values within a depth does not come out, there is a way that
many comparisons down. -/
lemma DeepEqual.way_of_ne (hvw : h.DeepEqual h v w) (hne : h.deepEqWithin n v w ≠ some true) :
    Way h.Compares (fun _ => True) n (v, w) := by
  induction n generalizing v w with
  | zero => exact .here trivial
  | succ n ih =>
    cases hvw with
    | plain hv =>
      refine absurd ?_ hne
      have hsame := v.same_self
      cases v with
      | array | object | function => cases hv
      | _ => exact congrArg some hsame
    | intrinsic | made => exact absurd (congrArg some (Value.same_self _)) hne
    | @array a b hsize hitems =>
      rw [deepEqWithin] at hne
      split_ifs at hne with hab
      · exact absurd rfl hne
      · obtain ⟨x, hx, hne⟩ := exists_of_allM_ne hne
        exact .step (.items hx) (ih (hitems x hx) hne)
    | @object o p hsize hnames hown hmembers =>
      rw [deepEqWithin] at hne
      split_ifs at hne with hop
      · exact absurd rfl hne
      · obtain ⟨x, hx, hne⟩ := exists_of_allM_ne hne
        obtain ⟨u, hu⟩ := Option.isSome_iff_exists.1 (hnames x hx)
        dsimp only at hne
        rw [hu] at hne
        exact .step (.entries hx hu) (ih (hown x hx u hu) hne)

/-- Values of one heap that are deep-equal are found to be. -/
theorem DeepEqual.deepEq?_eq_true (hvw : h.DeepEqual h v w) : h.deepEq? v w = some true := by
  by_contra hne
  refine not_loops_of_acc hvw.acc_compares ?_
  refine Way.loops (fun _ _ hxy => hxy.mem) (hvw.way_of_ne hne) ?_
  rw [List.length_product, length_containers]
  exact Nat.lt_succ_self _

end Heap

end DataBinding
