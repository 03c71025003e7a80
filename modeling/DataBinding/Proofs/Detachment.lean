import DataBinding.Proofs.Equalities
import DataBinding.Proofs.Freshness
import DataBinding.Proofs.Veils
import DataBinding.Value.Copy

/-!
# Deep copies

The deep copy of a value is made of its frozen form, with a fresh container for each that comes up
in it.  So it holds what the value holds, all the way down, and no array or object that was there
before; a container that the value holds twice has two copies.

What is written afterwards to containers that were there gets nowhere near the copy.  It keeps the
contents that the value had when it was copied, whatever becomes of the value
(`Heap.detached_deepCopy`).
-/

namespace DataBinding

open Relation (ReflTransGen)

/-! ## The names in a copy -/

namespace Heap

variable {h k : Heap} {v : Value} {f : Frozen} {n : ℕ}

/-- What is frozen of a heap has no name twice where no object of the heap has. -/
lemma named_of_freezeWithin (hkeys : ∀ o, (h.record o).keys.Nodup)
    (hf : h.freezeWithin n v = some f) : f.Named := by
  refine freezeWithin_induction (P := fun _ _ f => f.Named) ?_ ?_ ?_ hf
  · exact fun _ v _ _ => .leaf v
  · intro _ a items hitems
    refine .array fun g hg => ?_
    obtain ⟨w, -, hnamed⟩ := hitems g hg
    exact hnamed
  · intro _ o entries hnames hentries
    refine .object (hnames ▸ hkeys o) fun x hx => ?_
    obtain ⟨w, -, hnamed⟩ := hentries x hx
    exact hnamed

end Heap

namespace Frozen

lemma names_thawEntries (entries : List (String × Frozen)) (h : Heap) :
    (thawEntries entries h).1.map Prod.fst = entries.map Prod.fst := by
  induction entries generalizing h with
  | nil => rfl
  | cons x entries ih =>
    obtain ⟨key, f⟩ := x
    exact congrArg (key :: ·) (ih _)

mutual

/-- No object that is thawed has a name twice. -/
lemma nodup_thaw {h : Heap} (hkeys : ∀ o, (h.record o).keys.Nodup) {f : Frozen} (hf : f.Named)
    (o : ℕ) : ((f.thaw h).2.record o).keys.Nodup := by
  cases hf with
  | leaf => exact hkeys o
  | array hitems => exact nodup_thawItems hkeys hitems o
  | @object entries hnames hentries =>
    have hthawed : (⟨(thawEntries entries h).1⟩ : Record Value).keys.Nodup := by
      rw [Record.keys, names_thawEntries]
      exact hnames
    exact Heap.nodup_newObject (nodup_thawEntries hkeys hentries) hthawed none o

lemma nodup_thawItems {h : Heap} (hkeys : ∀ o, (h.record o).keys.Nodup) {items : List Frozen}
    (hitems : ∀ f ∈ items, f.Named) (o : ℕ) : ((thawItems items h).2.record o).keys.Nodup := by
  cases items with
  | nil => exact hkeys o
  | cons f items =>
    exact nodup_thawItems (nodup_thaw hkeys (hitems f (.head _)))
      (fun g hg => hitems g (.tail _ hg)) o

lemma nodup_thawEntries {h : Heap} (hkeys : ∀ o, (h.record o).keys.Nodup)
    {entries : List (String × Frozen)} (hentries : ∀ x ∈ entries, x.2.Named) (o : ℕ) :
    ((thawEntries entries h).2.record o).keys.Nodup := by
  cases entries with
  | nil => exact hkeys o
  | cons x entries =>
    obtain ⟨key, f⟩ := x
    exact nodup_thawEntries (nodup_thaw hkeys (hentries _ (.head _)))
      (fun y hy => hentries y (.tail _ hy)) o

end

end Frozen

/-! ## The containers of a copy -/

namespace Heap

variable {b h k : Heap} {v w : Value} {n : ℕ}

lemma Closed.complete (hh : h.Closed) (hv : h.Has v) : h.Complete v := by
  intro w hw
  induction hw with
  | refl => exact hv
  | tail _ hstep ih => exact hh.has_of_refers ih hstep

lemma Complete.of_refers (hv : h.Complete v) (hvw : h.Refers v w) : h.Complete w :=
  fun _ hw => hv _ (.head hvw hw)

/-- A value that is there and is neither an array nor an object has nothing in it that was made. -/
lemma MadeSince.of_leaf (hhas : h.Has v) (harray : ∀ a, v ≠ .array a)
    (hobject : ∀ o, v ≠ .object o) : b.MadeSince h v := by
  refine .intro hhas (fun howns => ?_) fun w hw => ?_
  · cases v with
    | array a => exact harray a rfl
    | object o => exact hobject o rfl
    | _ => cases howns
  · rcases hw with hw | ⟨o, _, ho, -⟩
    · cases v with
      | array a => exact absurd rfl (harray a)
      | object o => exact absurd rfl (hobject o)
      | _ => cases hw
    · exact absurd ho (hobject o)

end Heap

namespace Frozen

variable {b : Heap}

/-- Thawed in any heap that has grown from `b`, the frozen value has none of the containers of `b`
in it. -/
def ThawsFresh (b : Heap) (f : Frozen) : Prop :=
  ∀ h : Heap, b.Keeps h → b.MadeSince (f.thaw h).2 (f.thaw h).1

lemma madeSince_thawItems {items : List Frozen} (hitems : ∀ f ∈ items, f.ThawsFresh b) {h : Heap}
    (hbh : b.Keeps h) : ∀ v ∈ (thawItems items h).1, b.MadeSince (thawItems items h).2 v := by
  induction items generalizing h with
  | nil => nofun
  | cons f items ih =>
    have hrest := ih (fun g hg => hitems g (.tail _ hg)) (hbh.trans (f.keeps_thaw h))
    have hfirst := (hitems f (.head _) h hbh).of_keeps (keeps_thawItems items _)
    exact List.forall_mem_cons.2 ⟨hfirst, hrest⟩

lemma madeSince_thawEntries {entries : List (String × Frozen)}
    (hentries : ∀ x ∈ entries, x.2.ThawsFresh b) {h : Heap} (hbh : b.Keeps h) :
    ∀ x ∈ (thawEntries entries h).1, b.MadeSince (thawEntries entries h).2 x.2 := by
  induction entries generalizing h with
  | nil => nofun
  | cons x entries ih =>
    obtain ⟨key, f⟩ := x
    have hrest := ih (fun y hy => hentries y (.tail _ hy)) (hbh.trans (f.keeps_thaw h))
    have hfirst := (hentries _ (.head _) h hbh).of_keeps (keeps_thawEntries entries _)
    exact List.forall_mem_cons.2 ⟨hfirst, hrest⟩

lemma ThawsFresh.array {items : List Frozen} (hitems : ∀ f ∈ items, f.ThawsFresh b) :
    (array items).ThawsFresh b := by
  intro h hbh
  refine .newArray (hbh.trans (keeps_thawItems items h)) fun v hv => ?_
  exact madeSince_thawItems hitems hbh v (by simpa using hv)

lemma ThawsFresh.object {entries : List (String × Frozen)}
    (hentries : ∀ x ∈ entries, x.2.ThawsFresh b) : (object entries).ThawsFresh b :=
  fun h hbh => .newObject (hbh.trans (keeps_thawEntries entries h))
    (madeSince_thawEntries hentries hbh)

end Frozen

namespace Heap

variable {h k k' : Heap} {v : Value} {f : Frozen} {n : ℕ}

/-- What was frozen of values that are all there is thawed with fresh containers. -/
lemma thawsFresh_of_freezeWithin (hv : h.Complete v) (hf : h.freezeWithin n v = some f) :
    f.ThawsFresh h := by
  refine freezeWithin_induction (P := fun _ v f => h.Complete v → f.ThawsFresh h) ?_ ?_ ?_ hf hv
  · intro _ v harray hobject hv k hhk
    exact .of_leaf (hhk.sameAt (hv v .refl)).symm.has harray hobject
  · intro _ a items hitems hv
    refine .array fun g hg => ?_
    obtain ⟨w, hw, hfresh⟩ := hitems g hg
    exact hfresh (hv.of_refers (.inl hw))
  · intro _ o entries _ hentries hv
    refine .object fun x hx => ?_
    obtain ⟨w, hw, hfresh⟩ := hentries x hx
    exact hfresh (hv.of_refers (.inl hw))

/-! ## Writes -/

/-- One write: an array or an object that `P` admits gets other elements or other properties, or a
fresh container is made. -/
inductive Alters (P : Value → Prop) (h : Heap) : Heap → Prop
  | setItems {a : ℕ} (ha : P (.array a)) (items : Array Value) : Alters P h (h.setItems a items)
  | setRecord {o : ℕ} (ho : P (.object o)) {record : Record Value} (hrecord : record.keys.Nodup) :
      Alters P h (h.setRecord o record)
  | newArray (items : Array Value) : Alters P h (h.newArray items).2
  | newObject {record : Record Value} (hrecord : record.keys.Nodup) (proto : Option ℕ) :
      Alters P h (h.newObject record proto).2
  | newFunction (closure : Closure) : Alters P h (h.newFunction closure).2

variable {h' : Heap} {base : Value} {key : String} {P : Value → Prop}

/-- Assignments are writes. -/
lemma alters_setMember (hkeys : ∀ o, base = .object o → (h.record o).keys.Nodup) (hbase : P base)
    (hwrite : h.setMember base key v = some (.ok h')) : ReflTransGen (Alters P) h h' := by
  rcases setMember_cases hwrite with rfl | ⟨a, items, rfl, rfl⟩ | ⟨o, rfl, rfl⟩
  · exact .refl
  · exact .single (.setItems hbase items)
  · exact .single (.setRecord hbase (nodup_keys_set (hkeys o rfl) key v))

lemma Alters.nodup (hstep : Alters P h k) (hkeys : ∀ o, (h.record o).keys.Nodup) (o : ℕ) :
    (k.record o).keys.Nodup := by
  cases hstep with
  | setItems | newArray | newFunction => exact hkeys o
  | newObject hrecord proto => exact nodup_newObject hkeys hrecord proto o
  | setRecord _ hrecord =>
    rw [record_eq, object_setRecord]
    split_ifs
    · exact hrecord
    · exact hkeys o

/-- A write leaves alone what it does not admit. -/
lemma Alters.sameAt (hstep : Alters P h k) (hhas : h.Has v) (hv : ¬ P v) : h.SameAt k v := by
  cases hstep with
  | setItems ha items => exact sameAt_setItems hhas (fun heq => hv (heq ▸ ha)) items
  | setRecord ho => exact sameAt_setRecord hhas (fun heq => hv (heq ▸ ho)) _
  | newArray items => exact (h.keeps_newArray items).sameAt hhas
  | newObject _ proto => exact (h.keeps_newObject _ proto).sameAt hhas
  | newFunction closure => exact (h.keeps_newFunction closure).sameAt hhas

lemma nodup_of_alters (hsteps : ReflTransGen (Alters P) h k)
    (hkeys : ∀ o, (h.record o).keys.Nodup) (o : ℕ) : (k.record o).keys.Nodup := by
  induction hsteps generalizing o with
  | refl => exact hkeys o
  | tail _ hstep ih => exact hstep.nodup ih o

/-- A value of which nothing may be written to is unchanged by any number of writes. -/
lemma unchanged_of_alters (hsteps : ReflTransGen (Alters P) h k) (hv : h.Complete v)
    (hnot : ∀ w, ReflTransGen h.Refers v w → ¬ P w) : h.Unchanged k v := by
  intro w hw
  induction hsteps with
  | refl => exact sameAt_self (hv w hw)
  | tail _ hstep ih => exact ih.trans (hstep.sameAt ih.symm.has (hnot w hw))

/-! ## Contents -/

/-- A value that is unchanged holds what it held. -/
lemma Unchanged.freeze?_eq (hv : h.Unchanged k v) : k.freeze? v = h.freeze? v :=
  (Renaming.corresponds_unchanged.freeze?_eq (Renaming.matches_only hv)).symm

/-- The value holds what was frozen: it freezes to the same again, it agrees with it, and it is
deep-equal to whatever else holds the same. -/
structure HasContents (h : Heap) (f : Frozen) (v : Value) : Prop where
  freezes : h.freeze? v = some f
  agrees : h.agrees f v = true
  deepEq (w : Value) (hw : h.freeze? w = some f) :
    h.deepEq? v w = some true ∧ h.deepEq? w v = some true

lemma HasContents.of_freeze? (hkeys : ∀ o, (h.record o).keys.Nodup) (hv : h.freeze? v = some f) :
    h.HasContents f v := by
  have hagrees : ∀ {w}, h.freeze? w = some f → h.agrees f w = true := fun hw =>
    agrees_of_freezeWithin hw fun o _ => hkeys o
  refine ⟨hv, hagrees hv, fun w hw => ⟨?_, ?_⟩⟩
  · rw [deepEq?_of_freeze? hkeys hv, hagrees hw]
  · rw [deepEq?_of_freeze? hkeys hw, hagrees hv]

/-! ## Deep copies -/

/-- The container is already in the first heap or not yet in the second one, so it is none of what
was made in between. -/
def Elsewhere (h k : Heap) (v : Value) : Prop := h.Owns v ∨ ¬ k.Has v

/-- In the second heap, `c` is a copy of the value `v` of the first one, whose contents were `f`. -/
structure DetachedCopy (h : Heap) (v : Value) (f : Frozen) (c : Value) (k : Heap) : Prop where
  keeps : h.Keeps k
  equal : k.deepEq? c v = some true ∧ k.deepEq? v c = some true
  fresh : h.MadeSince k c
  lasts (k' : Heap) (hsteps : ReflTransGen (Alters (h.Elsewhere k)) k k') : k'.HasContents f c

/-- What was made between two heaps keeps its contents when something is written elsewhere. -/
lemma MadeSince.hasContents_of_alters (hv : h.MadeSince k v)
    (hkeys : ∀ o, (k.record o).keys.Nodup) (hf : k.freeze? v = some f)
    (hsteps : ReflTransGen (Alters (h.Elsewhere k)) k k') :
    k'.HasContents f v := by
  have hunchanged : k.Unchanged k' v :=
    unchanged_of_alters hsteps hv.complete fun w hw helsewhere =>
      helsewhere.elim (hv w hw).2 (not_not_intro (hv w hw).1)
  exact .of_freeze? (nodup_of_alters hsteps hkeys) (hunchanged.freeze?_eq.trans hf)

/-- A value that does not contain itself, and of which nothing is missing, has a deep copy.  The
copy is deep-equal to the value and has none of the containers that were there, and it keeps the
contents that the value had whatever is written to these afterwards. -/
theorem detached_deepCopy (hkeys : ∀ o, (h.record o).keys.Nodup) (hv : h.Complete v)
    (hacyclic : ¬ h.Cyclic v) : ∃ f c k, h.freeze? v = some f ∧ h.deepCopy? v = some (c, k) ∧
      h.DetachedCopy v f c k := by
  obtain ⟨f, hf⟩ := Option.ne_none_iff_exists'.1 (mt freeze?_eq_none_iff.1 hacyclic)
  -- The frozen form accounts for both: its leaves are no containers, so all that is thawed of it is
  -- fresh, and the copy freezes to it again, as the value still does.
  have hkeeps : h.Keeps (f.thaw h).2 := f.keeps_thaw h
  have hfresh : h.MadeSince (f.thaw h).2 (f.thaw h).1 :=
    thawsFresh_of_freezeWithin hv hf h (.refl h)
  have hkeys' := Frozen.nodup_thaw hkeys (named_of_freezeWithin hkeys hf)
  have hcopy := HasContents.of_freeze? hkeys' (freeze?_thaw hf h)
  have hvalue := (hv.unchanged_of_keeps hkeeps).freeze?_eq.trans hf
  refine ⟨f, _, _, hf, by rw [deepCopy?, hf]; rfl, hkeeps, hcopy.deepEq v hvalue, hfresh, ?_⟩
  exact fun _ => hfresh.hasContents_of_alters hkeys' hcopy.freezes

/-- An object that holds one array twice, and a function, and inherits from another object. -/
def drawer : Heap where
  arrays := #[#[.number Float.nan, .number (-0.0)]]
  objects := #[⟨⟨[("colour", .string "red")]⟩, none⟩,
    ⟨⟨[("left", .array 0), ("right", .array 0), ("pull", .function (.made 0))]⟩, some 0⟩]
  closures := #[.native "pull"]

lemma nodup_drawer (o : ℕ) : (drawer.record o).keys.Nodup := by
  match o with
  | 0 => decide
  | 1 => decide
  | _ + 2 => exact List.nodup_nil

lemma closed_drawer : drawer.Closed := by
  intro v w hvw
  have hitems : drawer.held (.array 0) = [.number Float.nan, .number (-0.0)] := by rfl
  have hroot : drawer.held (.object 0) = [.string "red"] := by rfl
  have hobject : drawer.held (.object 1) = [.array 0, .array 0, .function (.made 0)] := by rfl
  have hmem : w ∈ drawer.held (.array 0) ∨ w ∈ drawer.held (.object 0) ∨
      w ∈ drawer.held (.object 1) := by
    match v with
    | .array 0 => exact .inl hvw
    | .object 0 => exact .inr (.inl hvw)
    | .object 1 => exact .inr (.inr hvw)
    | .array (_ + 1) | .object (_ + 2) => cases hvw
  rw [hitems, hroot, hobject] at hmem
  simp only [List.mem_cons, List.not_mem_nil, or_false] at hmem
  rcases hmem with (rfl | rfl) | rfl | rfl | rfl | rfl
  · trivial
  · trivial
  · trivial
  · exact (by decide : 0 < drawer.arrays.size)
  · exact (by decide : 0 < drawer.arrays.size)
  · exact (by decide : 0 < drawer.closures.size)

/-- When an element of the array is replaced, the copy is still what the object was, and the object
is not. -/
theorem drawer_copied_before_assignment : (∀ o, (drawer.record o).keys.Nodup) ∧
    drawer.Complete (.object 1) ∧ ¬ drawer.Cyclic (.object 1) ∧
    ∃ f c k k', drawer.freeze? (.object 1) = some f ∧ drawer.deepCopy? (.object 1) = some (c, k) ∧
      drawer.DetachedCopy (.object 1) f c k ∧
      k.setMember (.array 0) "1" (.string "new") = some (.ok k') ∧ k'.HasContents f c ∧
      k'.deepEq? c (.object 1) = some false := by
  have hcomplete : drawer.Complete (.object 1) :=
    closed_drawer.complete (by decide : 1 < drawer.objects.size)
  have hacyclic : ¬ drawer.Cyclic (.object 1) := fun hcyclic => by
    cases freeze?_eq_none_iff.2 hcyclic
  obtain ⟨f, c, k, hf, hcopy, hdetached⟩ := detached_deepCopy nodup_drawer hcomplete hacyclic
  have hwrite : k.setMember (.array 0) "1" (.string "new") =
      some (.ok (k.setItems 0 #[.number Float.nan, .string "new"])) := by
    cases hcopy
    rfl
  have hold : drawer.Owns (.array 0) := (by decide : 0 < drawer.arrays.size)
  have hcontents := hdetached.lasts _
    (alters_setMember (fun _ heq => by cases heq) (.inl hold) hwrite)
  refine ⟨nodup_drawer, hcomplete, hacyclic, f, c, k, _, hf, hcopy, hdetached, hwrite, hcontents,
    ?_⟩
  cases hcopy
  rfl

end Heap

end DataBinding
