import DataBinding.Proofs.DeepEquality
import DataBinding.Proofs.Depth

/-!
# Thawed values

A value that is thawed has the contents that were frozen, whatever the heap was in between: frozen
again, it is what it was (`Heap.freeze?_thaw`).  The containers of a thawed value are fresh, so this
stays so while the heap grows.

To compare a value with a frozen one is to compare it with what was frozen, as long as that is
unchanged (`Heap.deepEq?_of_freeze?`).
-/

namespace DataBinding

/-! ## Names in frozen values -/

/-- No object in the frozen value has a name twice. -/
inductive Frozen.Named : Frozen → Prop
  | leaf (v : Value) : Named (.leaf v)
  | array {items : List Frozen} (hitems : ∀ f ∈ items, Named f) : Named (.array items)
  | object {entries : List (String × Frozen)} (hnames : (entries.map Prod.fst).Nodup)
    (hentries : ∀ x ∈ entries, Named x.2) : Named (.object entries)

/-! ## Freezing what was thawed -/

namespace Frozen

mutual

/-- To thaw a frozen value changes nothing that was there. -/
lemma keeps_thaw (f : Frozen) (h : Heap) : h.Keeps (f.thaw h).2 := by
  cases f with
  | leaf v => exact .refl h
  | array items => exact (keeps_thawItems items h).trans (Heap.keeps_newArray _ _)
  | object entries => exact (keeps_thawEntries entries h).trans (Heap.keeps_newObject _ _ _)

lemma keeps_thawItems (items : List Frozen) (h : Heap) : h.Keeps (thawItems items h).2 := by
  cases items with
  | nil => exact .refl h
  | cons f items => exact (f.keeps_thaw h).trans (keeps_thawItems items _)

lemma keeps_thawEntries (entries : List (String × Frozen)) (h : Heap) :
    h.Keeps (thawEntries entries h).2 := by
  cases entries with
  | nil => exact .refl h
  | cons x entries =>
    obtain ⟨key, f⟩ := x
    exact (f.keeps_thaw h).trans (keeps_thawEntries entries _)

end

variable {n : ℕ}

/-- Thawed in any heap, the frozen value can be frozen again, within the depth and also when the
heap has grown, and then is what it was. -/
def Thaws (n : ℕ) (f : Frozen) : Prop :=
  ∀ h : Heap, h.Keeps (f.thaw h).2 ∧
    ∀ k, (f.thaw h).2.Keeps k → k.freezeWithin n (f.thaw h).1 = some f

lemma thaws_items {items : List Frozen} (hitems : ∀ f ∈ items, f.Thaws n) (h : Heap) :
    h.Keeps (thawItems items h).2 ∧
      ∀ k, (thawItems items h).2.Keeps k →
        (thawItems items h).1.mapM (k.freezeWithin n) = some items := by
  induction items generalizing h with
  | nil => exact ⟨.refl h, fun _ _ => rfl⟩
  | cons f items ih =>
    obtain ⟨hfirst, hf⟩ := hitems f (.head _) h
    obtain ⟨hrest, hvalues⟩ := ih (fun g hg => hitems g (.tail _ hg)) (f.thaw h).2
    refine ⟨hfirst.trans hrest, fun k hk => ?_⟩
    simp only [thawItems, List.mapM_cons, hf k (hrest.trans hk), hvalues k hk]
    rfl

lemma thaws_entries {entries : List (String × Frozen)} (hentries : ∀ x ∈ entries, x.2.Thaws n)
    (h : Heap) :
    h.Keeps (thawEntries entries h).2 ∧
      ∀ k, (thawEntries entries h).2.Keeps k →
        (thawEntries entries h).1.mapM (fun x => do return (x.1, ← k.freezeWithin n x.2)) =
          some entries := by
  induction entries generalizing h with
  | nil => exact ⟨.refl h, fun _ _ => rfl⟩
  | cons x entries ih =>
    obtain ⟨key, f⟩ := x
    obtain ⟨hfirst, hf⟩ := hentries _ (.head _) h
    obtain ⟨hrest, hvalues⟩ := ih (fun y hy => hentries y (.tail _ hy)) (f.thaw h).2
    refine ⟨hfirst.trans hrest, fun k hk => ?_⟩
    simp only [thawEntries, List.mapM_cons, hf k (hrest.trans hk), hvalues k hk]
    rfl

lemma Thaws.array {items : List Frozen} (hitems : ∀ f ∈ items, f.Thaws n) :
    (array items).Thaws (n + 1) := by
  intro h
  obtain ⟨hkeeps, hvalues⟩ := thaws_items hitems h
  let values := (thawItems items h).1.toArray
  have hnew := Heap.keeps_newArray (thawItems items h).2 values
  refine ⟨hkeeps.trans hnew, fun k hk => ?_⟩
  have hread : k.items (thawItems items h).2.arrays.size = values := by
    refine (hk.items_eq (by simp [thaw, Heap.newArray])).trans ?_
    exact Heap.items_newArray_self _ _
  refine Option.bind_eq_some_iff.2 ⟨items, ?_, rfl⟩
  rw [hread]
  exact hvalues k (hnew.trans hk)

lemma Thaws.object {entries : List (String × Frozen)} (hentries : ∀ x ∈ entries, x.2.Thaws n) :
    (object entries).Thaws (n + 1) := by
  intro h
  obtain ⟨hkeeps, hvalues⟩ := thaws_entries hentries h
  let record : Record Value := ⟨(thawEntries entries h).1⟩
  have hnew := Heap.keeps_newObject (thawEntries entries h).2 record none
  refine ⟨hkeeps.trans hnew, fun k hk => ?_⟩
  have hread : k.record (thawEntries entries h).2.objects.size = record := by
    refine (congrArg Object.record (hk.object_eq (by simp [thaw, Heap.newObject]))).trans ?_
    exact congrArg Object.record (Heap.object_newObject_self _ _ _)
  refine Option.bind_eq_some_iff.2 ⟨entries, ?_, rfl⟩
  rw [hread]
  exact hvalues k (hnew.trans hk)

end Frozen

namespace Heap

variable {h : Heap} {v w : Value} {n m : ℕ} {f : Frozen}

lemma exists_of_mem_of_mapM {α β : Type} {g : α → Option β} {l : List α} {bs : List β} {b : β}
    (hl : l.mapM g = some bs) (hb : b ∈ bs) : ∃ a ∈ l, g a = some b := by
  induction l generalizing bs with
  | nil =>
    cases hl
    cases hb
  | cons a l ih =>
    obtain ⟨b', cs, rfl, hb', hrest⟩ := mapM_cons_cases hl
    rcases List.mem_cons.1 hb with rfl | hb
    · exact ⟨a, .head _, hb'⟩
    · obtain ⟨a', ha', hg⟩ := ih hrest hb
      exact ⟨a', .tail _ ha', hg⟩

/-- Entries are frozen as their values are. -/
lemma mapM_entries_cases {g : Value → Option Frozen} {key : String} {v : Value}
    {l : List (String × Value)} {entries : List (String × Frozen)}
    (hl : ((key, v) :: l).mapM (fun x => do return (x.1, ← g x.2)) = some entries) :
    ∃ f rest, entries = (key, f) :: rest ∧ g v = some f ∧
      l.mapM (fun x => do return (x.1, ← g x.2)) = some rest := by
  obtain ⟨y, rest, rfl, hy, hrest⟩ := mapM_cons_cases hl
  obtain ⟨f, hf, hend⟩ := Option.bind_eq_some_iff.1 hy
  cases hend
  exact ⟨f, rest, rfl, hf, hrest⟩

/-- Entries keep their names when they are frozen. -/
lemma names_of_mapM {g : Value → Option Frozen} {l : List (String × Value)}
    {entries : List (String × Frozen)}
    (hl : l.mapM (fun x => do return (x.1, ← g x.2)) = some entries) :
    entries.map Prod.fst = l.map Prod.fst := by
  induction l generalizing entries with
  | nil =>
    cases hl
    rfl
  | cons x l ih =>
    obtain ⟨key, v⟩ := x
    obtain ⟨f, rest, rfl, -, hrest⟩ := mapM_entries_cases hl
    rw [List.map_cons, List.map_cons, ih hrest]

/-- What holds of the frozen form of an array if it does of those of its elements, and of that of
an object if it does of those of its properties, holds of all that is frozen. -/
theorem freezeWithin_induction {P : ℕ → Value → Frozen → Prop}
    (hleaf : ∀ n v, (∀ a, v ≠ .array a) → (∀ o, v ≠ .object o) → P n v (.leaf v))
    (harray : ∀ n a items, (∀ g ∈ items, ∃ w, h.Holds (.array a) w ∧ P n w g) →
      P (n + 1) (.array a) (.array items))
    (hobject : ∀ n o entries, entries.map Prod.fst = (h.record o).keys →
      (∀ x ∈ entries, ∃ w, h.Holds (.object o) w ∧ P n w x.2) →
      P (n + 1) (.object o) (.object entries))
    (hf : h.freezeWithin n v = some f) : P n v f := by
  induction n generalizing v f with
  | zero =>
    cases v with
    | array | object => cases hf
    | _ =>
      cases hf
      exact hleaf _ _ nofun nofun
  | succ n ih =>
    cases v with
    | array a =>
      obtain ⟨items, hitems, hend⟩ := Option.bind_eq_some_iff.1 hf
      cases hend
      refine harray n a items fun g hg => ?_
      obtain ⟨w, hw, hg⟩ := exists_of_mem_of_mapM hitems hg
      exact ⟨w, hw, ih hg⟩
    | object o =>
      obtain ⟨entries, hentries, hend⟩ := Option.bind_eq_some_iff.1 hf
      cases hend
      refine hobject n o entries (names_of_mapM hentries) fun x hx => ?_
      obtain ⟨⟨key, w⟩, hw, hx⟩ := exists_of_mem_of_mapM hentries hx
      obtain ⟨g, hg, hend⟩ := Option.bind_eq_some_iff.1 hx
      cases hend
      exact ⟨w, List.mem_map_of_mem (f := Prod.snd) hw, ih hg⟩
    | _ =>
      cases hf
      exact hleaf _ _ nofun nofun

/-- What was frozen within a depth can be thawed. -/
lemma thaws_of_freezeWithin (hf : h.freezeWithin n v = some f) : f.Thaws n := by
  refine freezeWithin_induction (P := fun n _ f => f.Thaws n) ?_ ?_ ?_ hf
  · intro n v harray hobject h
    refine ⟨.refl h, fun k _ => ?_⟩
    cases v with
    | array a => exact absurd rfl (harray a)
    | object o => exact absurd rfl (hobject o)
    | _ => cases n <;> rfl
  · intro n a items hitems
    refine .array fun g hg => ?_
    obtain ⟨w, -, hthaws⟩ := hitems g hg
    exact hthaws
  · intro n o entries _ hentries
    refine .object fun x hx => ?_
    obtain ⟨w, -, hthaws⟩ := hentries x hx
    exact hthaws

/-- A value that is thawed has the contents that were frozen. -/
theorem freeze?_thaw (hf : h.freeze? v = some f) (k : Heap) :
    (f.thaw k).2.freeze? (f.thaw k).1 = some f := by
  have hthaw := (thaws_of_freezeWithin hf k).2 _ (.refl _)
  rw [← freezeWithin_of_le (Nat.le_max_right (h.containerCount + 1) _)]
  exact freezeWithin_mono hthaw (Nat.le_max_left _ _)

end Heap

/-! ## Comparing with what is frozen -/

lemma Value.same_comm (v w : Value) : v.same w = w.same v := by
  cases v with
  | number x =>
    cases w with
    | number y =>
      have hbeq : (x == y) = (y == x) := by
        rw [Bool.eq_iff_iff, Float.beq_iff_ne_nan_and_eq, Float.beq_iff_ne_nan_and_eq]
        tauto
      simp only [same, hbeq, Bool.and_comm]
    | _ => rfl
  | undefined | null => cases w <;> rfl
  | bool | string | array | object | function => cases w <;> first | rfl | exact Bool.beq_comm

namespace Heap

variable {h : Heap} {v w : Value} {n m : ℕ} {f : Frozen}

lemma agreesItems_of_mapM {g : Value → Option Frozen} {l : List Value}
    (hg : ∀ v ∈ l, ∀ f, g v = some f → h.agrees f v = true) {items : List Frozen}
    (hl : l.mapM g = some items) : h.agreesItems items l = true := by
  induction l generalizing items with
  | nil =>
    rw [List.mapM_nil] at hl
    cases hl
    simp [agreesItems]
  | cons v l ih =>
    obtain ⟨f, items, rfl, hf, hrest⟩ := mapM_cons_cases hl
    rw [agreesItems, hg v (.head _) f hf, ih (fun w hw => hg w (.tail _ hw)) hrest]
    rfl

lemma agreesEntries_of_mapM {g : Value → Option Frozen} {r : Record Value}
    {l : List (String × Value)} {entries : List (String × Frozen)}
    (hg : ∀ x ∈ l, ∀ f, g x.2 = some f → h.agrees f x.2 = true)
    (hr : ∀ x ∈ l, r.get? x.1 = some x.2)
    (hl : l.mapM (fun x => do return (x.1, ← g x.2)) = some entries) :
    h.agreesEntries entries r = true := by
  induction l generalizing entries with
  | nil =>
    rw [List.mapM_nil] at hl
    cases hl
    simp [agreesEntries]
  | cons x l ih =>
    obtain ⟨key, v⟩ := x
    obtain ⟨f, rest, rfl, hf, hrest⟩ := mapM_entries_cases hl
    have hkey : r.get? key = some v := hr _ (.head _)
    have hv := hg _ (.head _) f hf
    simp [agreesEntries, hkey, hv, ih (fun y hy => hg y (.tail _ hy))
      (fun y hy => hr y (.tail _ hy)) hrest]

lemma length_of_mapM {α β : Type} {g : α → Option β} {l : List α} {bs : List β}
    (hl : l.mapM g = some bs) : bs.length = l.length := by
  induction l generalizing bs with
  | nil =>
    cases hl
    rfl
  | cons a l ih =>
    obtain ⟨b, cs, rfl, -, hl⟩ := mapM_cons_cases hl
    rw [List.length_cons, ih hl, List.length_cons]

/-- What is compared element by element agrees with the frozen elements. -/
lemma allM_zip_of_mapM {g : Value → Option Frozen} {e : Value → Value → Option Bool}
    (he : ∀ v f, g v = some f → ∀ w, e v w = some (h.agrees f w)) {l l' : List Value}
    {items : List Frozen} (hl : l.mapM g = some items) (hlength : l.length = l'.length) :
    (l.zip l').allM (fun x => e x.1 x.2) = some (h.agreesItems items l') := by
  induction l generalizing items l' with
  | nil =>
    rw [List.mapM_nil] at hl
    cases hl
    cases l' with
    | nil => simp [agreesItems]
    | cons => cases hlength
  | cons v l ih =>
    obtain ⟨f, items, rfl, hf, hrest⟩ := mapM_cons_cases hl
    cases l' with
    | nil => cases hlength
    | cons w l' =>
      have hzip := ih hrest (Nat.succ.inj hlength)
      cases hagrees : h.agrees f w <;> simp [agreesItems, he v f hf w, hagrees, hzip]

lemma agreesItems_eq_false_of_length_ne {items : List Frozen} {l : List Value}
    (hlength : items.length ≠ l.length) : h.agreesItems items l = false := by
  induction items generalizing l with
  | nil =>
    cases l with
    | nil => cases hlength rfl
    | cons => simp [agreesItems]
  | cons f items ih =>
    cases l with
    | nil => simp [agreesItems]
    | cons v l =>
      rw [agreesItems, ih fun heq => hlength (congrArg Nat.succ heq), Bool.and_false]

/-- What is compared property by property agrees with the frozen properties. -/
lemma allM_entries_of_mapM {g : Value → Option Frozen} {e : Value → Value → Option Bool}
    (he : ∀ v f, g v = some f → ∀ w, e v w = some (h.agrees f w)) (r : Record Value)
    {l : List (String × Value)} {entries : List (String × Frozen)}
    (hl : l.mapM (fun x => do return (x.1, ← g x.2)) = some entries) :
    l.allM (fun x => (r.get? x.1).elim (some false) (e x.2)) =
      some (h.agreesEntries entries r) := by
  induction l generalizing entries with
  | nil =>
    rw [List.mapM_nil] at hl
    cases hl
    simp [agreesEntries]
  | cons x l ih =>
    obtain ⟨key, v⟩ := x
    obtain ⟨f, rest, rfl, hf, hrest⟩ := mapM_entries_cases hl
    have hall := ih hrest
    cases hw : r.get? key with
    | none => simp [agreesEntries, hw]
    | some w =>
      cases hagrees : h.agrees f w <;> simp [agreesEntries, hw, he v f hf w, hagrees, hall]

/-- A value agrees with what it is frozen to, if no record in it has a name twice. -/
lemma agrees_of_freezeWithin (hf : h.freezeWithin n v = some f)
    (hnodup : ∀ o, Relation.ReflTransGen h.Holds v (.object o) → (h.record o).keys.Nodup) :
    h.agrees f v = true := by
  induction n generalizing v f with
  | zero =>
    cases v with
    | array | object => cases hf
    | _ =>
      cases hf
      rw [agrees]
      exact Value.same_self _
  | succ n ih =>
    cases v with
    | array a =>
      obtain ⟨items, hitems, hend⟩ := Option.bind_eq_some_iff.1 hf
      cases hend
      rw [agrees]
      refine agreesItems_of_mapM (fun w hw _ hf => ih hf fun o ho => hnodup o ?_) hitems
      exact .head hw ho
    | object o =>
      obtain ⟨entries, hentries, hend⟩ := Option.bind_eq_some_iff.1 hf
      cases hend
      have hlength : (h.record o).size = entries.length := (length_of_mapM hentries).symm
      rw [agrees, hlength, beq_self_eq_true, Bool.true_and]
      refine agreesEntries_of_mapM (fun x hx _ hf => ih hf fun p hp => hnodup p ?_)
        (fun x hx => get?_of_mem_entries (hnodup o .refl) hx) hentries
      exact .head (List.mem_map_of_mem hx) hp
    | _ =>
      cases hf
      rw [agrees]
      exact Value.same_self _

section Comparing

variable (hnodup : ∀ o, (h.record o).keys.Nodup)

include hnodup

/-- Where a value can be frozen, it is deep-equal to what agrees with its frozen form. -/
lemma deepEqWithin_of_freezeWithin (hf : h.freezeWithin n v = some f) (hle : n ≤ m) (w : Value) :
    h.deepEqWithin m v w = some (h.agrees f w) := by
  induction n generalizing m v f w with
  | zero =>
    cases v with
    | array | object => cases hf
    | _ =>
      cases hf
      rw [agrees, Value.same_comm]
      cases m <;> rfl
  | succ n ih =>
    obtain ⟨m, rfl⟩ := Nat.exists_eq_add_of_le' (Nat.le_trans (Nat.succ_le_succ n.zero_le) hle)
    have hself := agrees_of_freezeWithin hf fun o _ => hnodup o
    cases v with
    | array a =>
      obtain ⟨items, hitems, hend⟩ := Option.bind_eq_some_iff.1 hf
      cases hend
      cases w with
      | array b =>
        rw [deepEqWithin]
        split_ifs with hab hsize
        · rw [← hab, hself]
        · rw [agrees]
          refine allM_zip_of_mapM (fun v f hf w => ih hf (Nat.le_of_succ_le_succ hle) w) hitems ?_
          simpa using hsize
        · rw [agrees, agreesItems_eq_false_of_length_ne]
          rw [length_of_mapM hitems]
          simpa using hsize
      | _ => rw [agrees] <;> first | rfl | simp
    | object o =>
      obtain ⟨entries, hentries, hend⟩ := Option.bind_eq_some_iff.1 hf
      cases hend
      have hlength : (h.record o).size = entries.length := (length_of_mapM hentries).symm
      cases w with
      | object p =>
        rw [deepEqWithin]
        split_ifs with hop hsize
        · rw [← hop, hself]
        · rw [agrees, ← hlength, hsize, beq_self_eq_true, Bool.true_and]
          have hall := allM_entries_of_mapM (g := h.freezeWithin n) (e := h.deepEqWithin m)
            (fun v f hf w => ih hf (Nat.le_of_succ_le_succ hle) w) (h.record p) hentries
          rw [← hall]
          congr 1
          funext x
          obtain ⟨key, v⟩ := x
          dsimp only
          cases (h.record p).get? key <;> rfl
        · rw [agrees, ← hlength, beq_false_of_ne (Ne.symm hsize), Bool.false_and]
      | _ => rw [agrees] <;> first | rfl | simp
    | _ =>
      cases hf
      rw [agrees, Value.same_comm]
      rfl

/-- Where a value can be frozen, it is deep-equal to just what agrees with its frozen form. -/
theorem deepEq?_of_freeze? (hf : h.freeze? v = some f) (w : Value) :
    h.deepEq? v w = some (h.agrees f w) :=
  deepEqWithin_of_freezeWithin hnodup hf (Nat.succ_le_succ (Nat.le_mul_self _)) w

end Comparing

variable {k : Heap}

mutual

/-- A value that is unchanged agrees with the same frozen values. -/
lemma agrees_of_unchanged (f : Frozen) {v : Value} (hv : h.Unchanged k v) :
    k.agrees f v = h.agrees f v := by
  cases f with
  | leaf w => simp [agrees]
  | array items =>
    cases v with
    | array a =>
      rw [agrees, agrees, ← (hv _ .refl).items_eq]
      exact agreesItems_of_unchanged items fun w hw => hv.of_refers (.inl hw)
    | _ => simp [agrees]
  | object entries =>
    cases v with
    | object o =>
      have hrecord : h.record o = k.record o := congrArg Object.record (hv _ .refl).object_eq
      rw [agrees, agrees, ← hrecord]
      congr 1
      exact agreesEntries_of_unchanged entries fun key w hw =>
        hv.of_refers (.inl (holds_of_get? hw))
    | _ => simp [agrees]

lemma agreesItems_of_unchanged (items : List Frozen) {values : List Value}
    (hvalues : ∀ w ∈ values, h.Unchanged k w) :
    k.agreesItems items values = h.agreesItems items values := by
  cases items with
  | nil => cases values <;> simp [agreesItems]
  | cons f items =>
    cases values with
    | nil => simp [agreesItems]
    | cons v values =>
      rw [agreesItems, agreesItems, agrees_of_unchanged f (hvalues v (.head _)),
        agreesItems_of_unchanged items fun w hw => hvalues w (.tail _ hw)]

lemma agreesEntries_of_unchanged (entries : List (String × Frozen)) {r : Record Value}
    (hr : ∀ key w, r.get? key = some w → h.Unchanged k w) :
    k.agreesEntries entries r = h.agreesEntries entries r := by
  cases entries with
  | nil => simp [agreesEntries]
  | cons x entries =>
    obtain ⟨key, f⟩ := x
    rw [agreesEntries, agreesEntries, agreesEntries_of_unchanged entries hr]
    cases hw : r.get? key with
    | none => rfl
    | some w =>
      dsimp only
      rw [agrees_of_unchanged f (hr key w hw)]

end

end Heap

end DataBinding
