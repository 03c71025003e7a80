import DataBinding.Proofs.Thawing

/-!
# The equalities of values

Four relations compare values: `Value.strictEq` and `Heap.looseEq?` are operators, `Value.same`
tells a watcher that a value has changed, and `Heap.deepEq?` compares contents.  On values that do
not contain themselves they fit together (`Heap.CoherentEqualities`): all are symmetric, the two
that watchers use are equivalences, and a finer one implies a coarser one.

Each of the two equivalences is read as a relation that is plainly one.  Values are the same if they
are equal or the two zeros (`Value.same_iff`).  Values have equal contents if they are `Heap.Alike`:
the comparison looks up each name of one object in the other, and where no object has a name twice
this is the same as to ask of every name whether both objects have it (`Heap.deepEqWithin_iff`).
-/

namespace DataBinding

/-! ## Identity -/

lemma beq_float_comm (x y : Float) : (x == y) = (y == x) := by
  have himp : ∀ {x y : Float}, (x == y) = true → (y == x) = true := fun hxy => by
    obtain ⟨hx, hy, heq⟩ := Float.beq_iff_ne_nan_and_eq.1 hxy
    exact Float.beq_iff_ne_nan_and_eq.2 ⟨hy, hx, by tauto⟩
  exact Bool.eq_iff_iff.2 ⟨himp, himp⟩

namespace Value

variable {u v w : Value}

/-- Values are the same just if they are equal or the two zeros. -/
theorem same_iff : v.same w = true ↔ v = w ∨ v.OppositeZeros w := by
  constructor
  · intro hsame
    by_cases hzeros : v.OppositeZeros w
    · exact .inr hzeros
    · exact .inl (eq_of_same hsame hzeros)
  · rintro (rfl | ⟨rfl, rfl⟩ | ⟨rfl, rfl⟩)
    · exact same_self v
    · rfl
    · rfl

lemma same_trans (huv : u.same v = true) (hvw : v.same w = true) : u.same w = true := by
  rw [same_iff] at *
  rcases huv with rfl | hu
  · exact hvw
  · rcases hvw with rfl | hw
    · exact .inr hu
    · -- with three zeros, the first is opposite to the last or is the last
      obtain ⟨rfl, hv⟩ | ⟨rfl, hv⟩ := hu <;> obtain ⟨hv', rfl⟩ | ⟨hv', rfl⟩ := hw
      · exact .inr (.inl ⟨rfl, rfl⟩)
      · exact .inl rfl
      · exact .inl rfl
      · exact .inr (.inr ⟨rfl, rfl⟩)

lemma strictEq_comm (v w : Value) : v.strictEq w = w.strictEq v := by
  have hcomm := same_comm v w
  cases v with
  | number x =>
    cases w with
    | number y => exact beq_float_comm x y
    | _ => rfl
  | _ =>
    cases w with
    -- but for numbers there is no difference between the two
    | number y => rfl
    | _ => exact hcomm

end Value

/-! ## Loose equality -/

namespace Heap

variable {h : Heap} {u v w : Value}

lemma looseEqFlat_comm (v w : Value) : looseEqFlat v w = looseEqFlat w v := by
  have hcomm := v.strictEq_comm w
  cases v with
  | number x =>
    cases w with
    | string t => exact beq_float_comm _ _
    | _ => exact hcomm
  | string s =>
    cases w with
    | number y => exact beq_float_comm _ _
    | _ => exact hcomm
  | _ => cases w <;> exact hcomm

lemma looseEq?_comm (v w : Value) : h.looseEq? v w = h.looseEq? w v := by
  unfold looseEq?
  rw [Bool.or_comm, Bool.and_comm]
  cases hv : (numeric v).isContainer <;> cases hw : (numeric w).isContainer <;>
    simp only [hv, hw, looseEqFlat_comm (numeric v), looseEqFlat_comm (.string _) (numeric w)]

/-- What lists itself contains itself. -/
lemma not_loops_of_not_cyclic (hv : ¬ h.Cyclic v) : ¬ Loops h.Lists v := by
  rintro ⟨w, hreach, hloop⟩
  have hholds : ∀ x y, h.Lists x y → h.Holds x y := by
    rintro x y ⟨a, rfl, hy⟩
    exact hy
  exact hv ⟨w, Relation.ReflTransGen.mono hholds _ _ hreach,
    Relation.TransGen.mono hholds _ _ hloop⟩

lemma looseEq?_isSome (hv : ¬ h.Cyclic v) (hw : ¬ h.Cyclic w) : (h.looseEq? v w).isSome := by
  rw [Option.isSome_iff_ne_none, Ne, looseEq?_eq_none_iff]
  rintro ⟨-, hloops | hloops⟩
  · exact not_loops_of_not_cyclic hv hloops
  · exact not_loops_of_not_cyclic hw hloops

lemma looseEq?_of_strictEq (hvw : v.strictEq w = true) : h.looseEq? v w = some true := by
  cases v with
  | undefined | null => cases w <;> first | rfl | cases hvw
  | bool b =>
    cases w with
    | bool b' =>
      obtain rfl := eq_of_beq hvw
      cases b <;> rfl
    | _ => cases hvw
  | number | string | array | object | function =>
    cases w <;> first | cases hvw | exact congrArg some hvw

/-! ## Equal contents -/

lemma mem_keys_iff {r : Record Value} {key : String} : key ∈ r.keys ↔ r.has key = true := by
  rw [Record.has, Record.get?, List.lookup_isSome_iff, Record.keys, List.mem_map]
  exact exists_congr fun x => and_congr_right fun _ => by rw [beq_iff_eq, eq_comm]

/-- A record that has so many different names, and is no larger, has no others. -/
lemma perm_keys_of_size {names : List String} {r : Record Value} (hnodup : names.Nodup)
    (hsize : names.length = r.size) (hnames : ∀ name ∈ names, r.has name = true) :
    names.Perm r.keys := by
  have hsubset : names ⊆ r.keys := fun name hname => mem_keys_iff.2 (hnames name hname)
  have hlength : r.keys.length ≤ names.length := by
    simpa [Record.keys, Record.size] using hsize.ge
  exact (hnodup.subperm hsubset).perm_of_length_le hlength

lemma has_eq_of_size {r r' : Record Value} (hnodup : r.keys.Nodup) (hsize : r.size = r'.size)
    (hnames : ∀ x ∈ r.entries, r'.has x.1 = true) (key : String) : r.has key = r'.has key := by
  have hlength : r.keys.length = r'.size := by simpa [Record.keys, Record.size] using hsize
  have hperm := perm_keys_of_size hnodup hlength (List.forall_mem_map.2 hnames)
  rw [Bool.eq_iff_iff, ← mem_keys_iff, ← mem_keys_iff, hperm.mem_iff]

/-- The values hold the same all the way down: arrays of one length element by element, objects own
property by own property, and all else is the same. -/
inductive Alike (h : Heap) : Value → Value → Prop
  | same {v w : Value} (hvw : v.same w = true) : Alike h v w
  | array {a b : ℕ} (hsize : (h.items a).size = (h.items b).size)
    (hitems : ∀ (i : ℕ) v w, (h.items a)[i]? = some v → (h.items b)[i]? = some w → Alike h v w) :
    Alike h (.array a) (.array b)
  | object {o p : ℕ}
    (hnames : ∀ key, (h.record o).has key = (h.record p).has key)
    (hown : ∀ key v w, (h.record o).get? key = some v → (h.record p).get? key = some w →
      Alike h v w) :
    Alike h (.object o) (.object p)

namespace Alike

lemma symm (hvw : h.Alike v w) : h.Alike w v := by
  induction hvw with
  | @same v w hvw => exact .same (v.same_comm w ▸ hvw)
  | array hsize _ ih => exact .array hsize.symm fun i v w hv hw => ih i w v hw hv
  | object hnames _ ih =>
    exact .object (fun key => (hnames key).symm) fun key v w hv hw => ih key w v hw hv

lemma trans (huv : h.Alike u v) (hvw : h.Alike v w) : h.Alike u w := by
  induction huv generalizing w with
  | same huv =>
    rcases Value.same_iff.1 huv with rfl | ⟨rfl, rfl⟩ | ⟨rfl, rfl⟩
    · exact hvw
    all_goals
      cases hvw with
      | same hvw => exact .same (Value.same_trans huv hvw)
  | @array a b hsize hitems ih =>
    cases hvw with
    | same hsame =>
      obtain rfl | ⟨⟨⟩, -⟩ | ⟨⟨⟩, -⟩ := Value.same_iff.1 hsame
      exact .array hsize hitems
    | @array _ c hsize' hitems' =>
      refine .array (hsize.trans hsize') fun i x z hx hz => ?_
      have hlt : i < (h.items b).size := hsize ▸ (Array.getElem?_eq_some_iff.1 hx).1
      exact ih i x _ hx (Array.getElem?_eq_getElem hlt)
        (hitems' i _ z (Array.getElem?_eq_getElem hlt) hz)
  | @object o p hnames hown ih =>
    cases hvw with
    | same hsame =>
      obtain rfl | ⟨⟨⟩, -⟩ | ⟨⟨⟩, -⟩ := Value.same_iff.1 hsame
      exact .object hnames hown
    | @object _ q hnames' hown' =>
      refine .object (fun key => (hnames key).trans (hnames' key)) fun key x z hx hz => ?_
      have hmiddle : (h.record p).has key = true := by
        rw [← hnames key, Record.has, hx, Option.isSome_some]
      obtain ⟨y, hy⟩ := Option.isSome_iff_exists.1 hmiddle
      exact ih key x y hx hy (hown' key y z hy hz)

lemma array_iff {a b : ℕ} : h.Alike (.array a) (.array b) ↔ a = b ∨
    (h.items a).size = (h.items b).size ∧ ∀ x ∈ (h.items a).toList.zip (h.items b).toList,
      h.Alike x.1 x.2 := by
  constructor
  · intro hab
    cases hab with
    | same hsame => exact .inl (eq_of_beq hsame)
    | array hsize hitems =>
      refine .inr ⟨hsize, fun x hx => ?_⟩
      obtain ⟨i, hi⟩ := List.mem_iff_getElem?.1 hx
      obtain ⟨hv, hw⟩ := List.getElem?_zip_eq_some.1 hi
      exact hitems i _ _ (by simpa using hv) (by simpa using hw)
  · rintro (rfl | ⟨hsize, hitems⟩)
    · exact .same (Value.same_self _)
    · refine .array hsize fun i v w hv hw => hitems (v, w) (List.mem_iff_getElem?.2 ⟨i, ?_⟩)
      rw [List.getElem?_zip_eq_some]
      exact ⟨by simpa using hv, by simpa using hw⟩

/-- Objects that have no name twice are alike just if they are of one size and for each own property
of the first the second has one that is alike. -/
lemma object_iff (hkeys : ∀ o, (h.record o).keys.Nodup) {o p : ℕ} :
    h.Alike (.object o) (.object p) ↔ o = p ∨ (h.record o).size = (h.record p).size ∧
      ∀ x ∈ (h.record o).entries, ∃ w, (h.record p).get? x.1 = some w ∧ h.Alike x.2 w := by
  constructor
  · intro hop
    cases hop with
    | same hsame => exact .inl (eq_of_beq hsame)
    | object hnames hown =>
      refine .inr ⟨?_, fun x hx => ?_⟩
      · have hperm : (h.record o).keys.Perm (h.record p).keys :=
          (List.perm_ext_iff_of_nodup (hkeys o) (hkeys p)).2 fun key => by
            rw [mem_keys_iff, mem_keys_iff, hnames]
        simpa [Record.keys, Record.size] using hperm.length_eq
      · have hx' := get?_of_mem_entries (hkeys o) hx
        have hhas := hnames x.1
        rw [Record.has, hx'] at hhas
        obtain ⟨w, hw⟩ := Option.isSome_iff_exists.1 hhas.symm
        exact ⟨w, hw, hown x.1 x.2 w hx' hw⟩
  · rintro (rfl | ⟨hsize, hentries⟩)
    · exact .same (Value.same_self _)
    · refine .object (fun key => ?_) fun key v w hv hw => ?_
      · refine has_eq_of_size (hkeys o) hsize (fun x hx => ?_) key
        obtain ⟨w, hw, -⟩ := hentries x hx
        rw [Record.has, hw, Option.isSome_some]
      · obtain ⟨w', hw', hvw⟩ := hentries _ (mem_of_lookup hv)
        obtain rfl := Option.some.inj (hw.symm.trans hw')
        exact hvw

/-- Two values are two arrays, or two objects, or are compared by identity. -/
lemma cases (h : Heap) (v w : Value) : (∃ a b, v = .array a ∧ w = .array b) ∨
    (∃ o p, v = .object o ∧ w = .object p) ∨
      (h.Alike v w ↔ v.same w = true) ∧ ∀ n, h.deepEqWithin n v w = some (v.same w) := by
  cases v with
  | array a => cases w with
    | array b => exact .inl ⟨a, b, rfl, rfl⟩
    | _ => exact .inr (.inr ⟨⟨fun h => by cases h; assumption, .same⟩, fun n => by cases n <;> rfl⟩)
  | object o => cases w with
    | object p => exact .inr (.inl ⟨o, p, rfl, rfl⟩)
    | _ => exact .inr (.inr ⟨⟨fun h => by cases h; assumption, .same⟩, fun n => by cases n <;> rfl⟩)
  | _ =>
    exact .inr (.inr ⟨⟨fun h => by cases h; assumption, .same⟩, fun n => by cases n <;> rfl⟩)

end Alike

/-! ### The search through one side -/

variable {n : ℕ} {b : Bool}

section Search

variable {α : Type} {f : α → Option Bool} {l : List α} {P : α → Prop} {identical sized : Prop}
  [Decidable identical] [Decidable sized]

/-- A search that comes out finds whether all have a property, if each check that comes out does. -/
lemma allM_iff (hf : ∀ x ∈ l, ∀ b, f x = some b → (b = true ↔ P x)) (hb : l.allM f = some b) :
    b = true ↔ ∀ x ∈ l, P x := by
  induction l with
  | nil =>
    cases hb
    exact iff_of_true rfl (List.forall_mem_nil P)
  | cons x l ih =>
    rw [List.forall_mem_cons] at hf ⊢
    obtain ⟨c, hc, hrest⟩ := Option.bind_eq_some_iff.1 hb
    rw [← hf.1 c hc]
    cases c with
    | true => rw [ih hf.2 hrest, and_iff_right rfl]
    | false =>
      cases hrest
      simp

lemma exists_of_allM_eq_none (hnone : l.allM f = none) : ∃ x ∈ l, f x = none := by
  induction l with
  | nil => cases hnone
  | cons x l ih =>
    cases hx : f x with
    | none => exact ⟨x, .head _, hx⟩
    | some c =>
      rw [List.allM, hx] at hnone
      cases c with
      | true =>
        obtain ⟨y, hy, hfy⟩ := ih hnone
        exact ⟨y, .tail _ hy, hfy⟩
      | false => cases hnone

/-- Containers are compared at a glance if they are one, or of two sizes, and part by part
otherwise. -/
lemma search_iff (hf : ∀ x ∈ l, ∀ b, f x = some b → (b = true ↔ P x))
    (hb : (if identical then some true else if sized then l.allM f else some false) = some b) :
    b = true ↔ identical ∨ sized ∧ ∀ x ∈ l, P x := by
  split_ifs at hb with hidentical hsized
  · cases hb
    exact iff_of_true rfl (.inl hidentical)
  · rw [allM_iff hf hb, or_iff_right hidentical, and_iff_right hsized]
  · cases hb
    exact iff_of_false nofun (not_or.2 ⟨hidentical, fun h => hsized h.1⟩)

end Search

/-- What the comparison of contents answers is whether they are alike. -/
theorem deepEqWithin_iff (hkeys : ∀ o, (h.record o).keys.Nodup)
    (hb : h.deepEqWithin n v w = some b) : b = true ↔ h.Alike v w := by
  induction n generalizing v w b with
  | zero =>
    rcases Alike.cases h v w with ⟨a, a', rfl, rfl⟩ | ⟨o, p, rfl, rfl⟩ | ⟨halike, hflat⟩
    · rw [deepEqWithin] at hb
      split_ifs at hb with heq
      cases hb
      exact iff_of_true rfl (Alike.array_iff.2 (.inl heq))
    · rw [deepEqWithin] at hb
      split_ifs at hb with heq
      cases hb
      exact iff_of_true rfl ((Alike.object_iff hkeys).2 (.inl heq))
    · rw [hflat, Option.some_inj] at hb
      rw [halike, hb]
  | succ n ih =>
    rcases Alike.cases h v w with ⟨a, a', rfl, rfl⟩ | ⟨o, p, rfl, rfl⟩ | ⟨halike, hflat⟩
    · rw [deepEqWithin] at hb
      rw [Alike.array_iff]
      exact search_iff (fun x _ _ hb => ih hb) hb
    · rw [deepEqWithin] at hb
      rw [Alike.object_iff hkeys]
      refine search_iff (fun x _ c hc => ?_) hb
      cases hw : (h.record p).get? x.1 with
      | none => simp_all
      | some w =>
        simp only [hw] at hc
        simpa using ih hc
    · rw [hflat, Option.some_inj] at hb
      rw [halike, hb]

/-- Where the comparison of contents does not come out, there is a way that many comparisons
down. -/
lemma way_of_deepEqWithin (hnone : h.deepEqWithin n v w = none) :
    Way h.Compares (fun _ => True) n (v, w) := by
  induction n generalizing v w with
  | zero => exact .here trivial
  | succ n ih =>
    rcases Alike.cases h v w with ⟨a, a', rfl, rfl⟩ | ⟨o, p, rfl, rfl⟩ | ⟨-, hflat⟩
    · rw [deepEqWithin] at hnone
      split_ifs at hnone
      obtain ⟨x, hx, hfail⟩ := exists_of_allM_eq_none hnone
      exact .step (.items hx) (ih hfail)
    · rw [deepEqWithin] at hnone
      split_ifs at hnone
      obtain ⟨x, hx, hfail⟩ := exists_of_allM_eq_none hnone
      dsimp only at hfail
      cases hw : (h.record p).get? x.1 with
      | none => simp [hw] at hfail
      | some w =>
        rw [hw] at hfail
        exact .step (.entries hx hw) (ih hfail)
    · cases (hflat (n + 1)).symm.trans hnone

lemma Compares.holds {x y : Value × Value} (hxy : h.Compares x y) : h.Holds x.1 y.1 := by
  cases hxy with
  | items hx => exact (List.of_mem_zip hx).1
  | entries hx => exact List.mem_map_of_mem (f := Prod.snd) hx

lemma Compares.holds_right {x y : Value × Value} (hxy : h.Compares x y) : h.Holds x.2 y.2 := by
  cases hxy with
  | items hx => exact (List.of_mem_zip hx).2
  | entries _ hw => exact holds_of_get? hw

/-- Only values that both contain themselves cannot be compared by contents. -/
lemma cyclic_of_deepEq? (hnone : h.deepEq? v w = none) : h.Cyclic v ∧ h.Cyclic w := by
  have hloops : Loops h.Compares (v, w) := by
    refine (way_of_deepEqWithin hnone).loops (fun _ _ hxy => hxy.mem) ?_
    rw [List.length_product, length_containers]
    exact Nat.lt_succ_self _
  obtain ⟨x, hreach, hloop⟩ := hloops
  exact ⟨⟨x.1, hreach.lift Prod.fst fun _ _ => Compares.holds,
      hloop.lift Prod.fst fun _ _ => Compares.holds⟩,
    x.2, hreach.lift Prod.snd fun _ _ => Compares.holds_right,
      hloop.lift Prod.snd fun _ _ => Compares.holds_right⟩

/-- A value that does not contain itself can be compared by contents with any other one. -/
lemma exists_deepEq? (hkeys : ∀ o, (h.record o).keys.Nodup) (hv : ¬ h.Cyclic v) (w : Value) :
    ∃ b, h.deepEq? v w = some b ∧ (b = true ↔ h.Alike v w) := by
  cases hb : h.deepEq? v w with
  | some b => exact ⟨b, rfl, deepEqWithin_iff hkeys hb⟩
  | none => exact absurd (cyclic_of_deepEq? hb).1 hv

/-- It makes no difference which of two values is compared with the other, if one of them does not
contain itself. -/
lemma deepEq?_comm (hkeys : ∀ o, (h.record o).keys.Nodup) (hw : ¬ h.Cyclic w) (v : Value) :
    h.deepEq? v w = h.deepEq? w v := by
  cases hb : h.deepEq? v w with
  | none => exact absurd (cyclic_of_deepEq? hb).2 hw
  | some b =>
    obtain ⟨c, hc, hiff⟩ := exists_deepEq? hkeys hw v
    have hbc : b = c := by
      rw [Bool.eq_iff_iff, deepEqWithin_iff hkeys hb, hiff]
      exact ⟨Alike.symm, Alike.symm⟩
    rw [hc, hbc]

/-! ## How the equalities fit together -/

/-- The equalities on values that do not contain themselves: all are symmetric, identity and
equality of contents are reflexive and transitive, and what is finer implies what is coarser. -/
structure CoherentEqualities (h : Heap) : Prop where
  strict_symm (v w : Value) : v.strictEq w = w.strictEq v
  same_symm (v w : Value) : v.same w = w.same v
  loose_symm (v w : Value) (hv : ¬ h.Cyclic v) (hw : ¬ h.Cyclic w) :
    ∃ b, h.looseEq? v w = some b ∧ h.looseEq? w v = some b
  deep_symm (v w : Value) (hv : ¬ h.Cyclic v) (hw : ¬ h.Cyclic w) :
    ∃ b, h.deepEq? v w = some b ∧ h.deepEq? w v = some b
  same_refl (v : Value) : v.same v = true
  same_trans (u v w : Value) (huv : u.same v = true) (hvw : v.same w = true) : u.same w = true
  deep_refl (v : Value) (hv : ¬ h.Cyclic v) : h.deepEq? v v = some true
  deep_trans (u v w : Value) (hu : ¬ h.Cyclic u) (hv : ¬ h.Cyclic v) (hw : ¬ h.Cyclic w)
    (huv : h.deepEq? u v = some true) (hvw : h.deepEq? v w = some true) :
    h.deepEq? u w = some true
  same_of_strict (v w : Value) (hvw : v.strictEq w = true) : v.same w = true
  loose_of_strict (v w : Value) (hvw : v.strictEq w = true) : h.looseEq? v w = some true
  deep_of_same (v w : Value) (hv : ¬ h.Cyclic v) (hw : ¬ h.Cyclic w) (hvw : v.same w = true) :
    h.deepEq? v w = some true

lemma deepEq?_eq_true_iff (hkeys : ∀ o, (h.record o).keys.Nodup) (hv : ¬ h.Cyclic v) :
    h.deepEq? v w = some true ↔ h.Alike v w := by
  obtain ⟨b, hb, hiff⟩ := exists_deepEq? hkeys hv w
  rw [hb, ← hiff, Option.some_inj]

/-- Where no object has a name twice, the equalities fit together. -/
theorem coherent_equalities (hkeys : ∀ o, (h.record o).keys.Nodup) : h.CoherentEqualities where
  strict_symm := Value.strictEq_comm
  same_symm := Value.same_comm
  loose_symm v w hv hw := by
    obtain ⟨b, hb⟩ := Option.isSome_iff_exists.1 (looseEq?_isSome hv hw)
    exact ⟨b, hb, looseEq?_comm v w ▸ hb⟩
  deep_symm v w hv hw := by
    obtain ⟨b, hb, hvw⟩ := exists_deepEq? hkeys hv w
    obtain ⟨c, hc, hwv⟩ := exists_deepEq? hkeys hw v
    have hbc : b = c := by
      rw [Bool.eq_iff_iff, hvw, hwv]
      exact ⟨Alike.symm, Alike.symm⟩
    exact ⟨b, hb, hbc ▸ hc⟩
  same_refl := Value.same_self
  same_trans _ _ _ := Value.same_trans
  deep_refl v hv := (deepEq?_eq_true_iff hkeys hv).2 (.same v.same_self)
  deep_trans u v w hu hv _ huv hvw := by
    rw [deepEq?_eq_true_iff hkeys hu] at huv ⊢
    rw [deepEq?_eq_true_iff hkeys hv] at hvw
    exact huv.trans hvw
  same_of_strict _ _ := Value.same_of_strictEq
  loose_of_strict _ _ := looseEq?_of_strictEq
  deep_of_same _ _ hv _ hvw := (deepEq?_eq_true_iff hkeys hv).2 (.same hvw)

/-- Two objects with the same names in different orders, and beneath one of these two arrays of
which no element is equal to itself. -/
def twoShelves : Heap where
  arrays := #[#[.number Float.nan], #[.number Float.nan]]
  objects := #[⟨⟨[("label", .string "a"), ("books", .array 0)]⟩, none⟩,
    ⟨⟨[("books", .array 1), ("label", .string "a")]⟩, none⟩]
  closures := #[]

lemma nodup_twoShelves (o : ℕ) : (twoShelves.record o).keys.Nodup := by
  match o with
  | 0 => decide
  | 1 => decide
  | _ + 2 => exact List.nodup_nil

/-- The shelves are compared name by name, in either order. -/
theorem twoShelves_coherent :
    (∀ o, (twoShelves.record o).keys.Nodup) ∧ twoShelves.CoherentEqualities :=
  ⟨nodup_twoShelves, coherent_equalities nodup_twoShelves⟩

example : twoShelves.deepEq? (.object 0) (.object 1) = some true := by decide

end Heap

end DataBinding
