import DataBinding.Proofs.Renaming
import DataBinding.Proofs.Runs

/-!
# Evaluations that run alike

An evaluation reads and writes the heap.  If it makes containers of its own and writes nothing but
these, then it runs alike in two heaps that correspond: what it makes in the one stands for what it
makes in the other, and the results stand for each other.  `Mirrors` says so of two computations.

It passes from the parts of an expression to the expression (`Expr.mirrors_eval`), if this puts its
parts together by operators, literals, members, choices and filters (`Expr.MadeOf`), and if the
filters run alike as well (`Library.RunsAlike`).  They do if they do nothing but with the contents
of their arguments (`Library.Contentual`).
-/

namespace DataBinding

open Compute (runOn)

variable {σ α β γ δ : Type}

/-! ## Heaps that grow -/

namespace Heap

variable {b h k : Heap}

/-- All containers of the first heap are in the second one, as they were. -/
structure Keeps (b h : Heap) : Prop where
  arrays : ∀ {a}, a < b.arrays.size → h.arrays[a]? = b.arrays[a]?
  objects : ∀ {o}, o < b.objects.size → h.objects[o]? = b.objects[o]?
  closures : ∀ {f}, f < b.closures.size → h.closures[f]? = b.closures[f]?

namespace Keeps

lemma refl (h : Heap) : h.Keeps h := ⟨fun _ => rfl, fun _ => rfl, fun _ => rfl⟩

lemma lt_size_of_getElem? {xs ys : Array α} {i : ℕ} (hi : i < xs.size) (h : ys[i]? = xs[i]?) :
    i < ys.size := by
  rw [Array.getElem?_eq_getElem hi] at h
  exact (Array.getElem?_eq_some_iff.1 h).1

lemma trans (hbh : b.Keeps h) (hhk : h.Keeps k) : b.Keeps k where
  arrays ha := (hhk.arrays (lt_size_of_getElem? ha (hbh.arrays ha))).trans (hbh.arrays ha)
  objects ho := (hhk.objects (lt_size_of_getElem? ho (hbh.objects ho))).trans (hbh.objects ho)
  closures hf := (hhk.closures (lt_size_of_getElem? hf (hbh.closures hf))).trans (hbh.closures hf)

lemma lt_arrays (hbh : b.Keeps h) {a : ℕ} (ha : a < b.arrays.size) : a < h.arrays.size :=
  lt_size_of_getElem? ha (hbh.arrays ha)

lemma lt_objects (hbh : b.Keeps h) {o : ℕ} (ho : o < b.objects.size) : o < h.objects.size :=
  lt_size_of_getElem? ho (hbh.objects ho)

lemma lt_closures (hbh : b.Keeps h) {f : ℕ} (hf : f < b.closures.size) : f < h.closures.size :=
  lt_size_of_getElem? hf (hbh.closures hf)

lemma size_objects_le (hbh : b.Keeps h) : b.objects.size ≤ h.objects.size := by
  by_contra hlt
  exact lt_irrefl _ (hbh.lt_objects (lt_of_not_ge hlt))

lemma items_eq (hbh : b.Keeps h) {a : ℕ} (ha : a < b.arrays.size) : h.items a = b.items a := by
  rw [items, hbh.arrays ha, items]

lemma object_eq (hbh : b.Keeps h) {o : ℕ} (ho : o < b.objects.size) : h.object o = b.object o := by
  rw [object, hbh.objects ho, object]

lemma functionName_eq (hbh : b.Keeps h) {f : ℕ} (hf : f < b.closures.size) :
    h.functionName (.made f) = b.functionName (.made f) := by
  rw [functionName, closure?, hbh.closures hf, functionName, closure?]

end Keeps

lemma keeps_newArray (h : Heap) (items : Array Value) : h.Keeps (h.newArray items).2 :=
  { Keeps.refl h with arrays := fun ha => by simp [newArray, Array.getElem?_push, ha.ne] }

lemma keeps_newObject (h : Heap) (record : Record Value) (proto : Option ℕ) :
    h.Keeps (h.newObject record proto).2 :=
  { Keeps.refl h with objects := fun ho => by simp [newObject, Array.getElem?_push, ho.ne] }

lemma keeps_newFunction (h : Heap) (closure : Closure) : h.Keeps (h.newFunction closure).2 :=
  { Keeps.refl h with closures := fun hf => by simp [newFunction, Array.getElem?_push, hf.ne] }

/-- A property is written to an object that is not one of those. -/
lemma Keeps.setOwn (hbh : b.Keeps h) {o : ℕ} (ho : b.objects.size ≤ o) (key : String) (v : Value) :
    b.Keeps (h.setOwn o key v) :=
  { hbh with
    objects := fun hp => by
      rw [← hbh.objects hp]
      simp [Heap.setOwn, setRecord, Array.getElem?_modify, (hp.trans_le ho).ne'] }

lemma parent?_setOwn (h : Heap) (o : ℕ) (key : String) (v : Value) (p : ℕ) :
    (h.setOwn o key v).parent? p = h.parent? p := by
  have hproto : (h.setOwn o key v).proto p = h.proto p := by
    simp only [proto, object, Heap.setOwn, setRecord, Array.getElem?_modify]
    split
    · cases h.objects[p]? <;> rfl
    · rfl
  rw [parent?, hproto, parent?]

end Heap

namespace Renaming

variable {ρ : Renaming} {h k h' k' : Heap} {a b o p : ℕ}

namespace Corresponds

/-- Heaps go on to correspond when they grow. -/
lemma keeps (hρ : ρ.Corresponds h k) (hh : h.Keeps h') (hk : k.Keeps k') : ρ.Corresponds h' k' where
  array_iff := hρ.array_iff
  object_iff := hρ.object_iff
  array_lt hab := ⟨hh.lt_arrays (hρ.array_lt hab).1, hk.lt_arrays (hρ.array_lt hab).2⟩
  object_lt hop := ⟨hh.lt_objects (hρ.object_lt hop).1, hk.lt_objects (hρ.object_lt hop).2⟩
  function_lt hf := ⟨hh.lt_closures (hρ.function_lt hf).1, hk.lt_closures (hρ.function_lt hf).2⟩
  items hab := by
    rw [hh.items_eq (hρ.array_lt hab).1, hk.items_eq (hρ.array_lt hab).2]
    exact hρ.items hab
  entries hop := by
    rw [Heap.record, hh.object_eq (hρ.object_lt hop).1, Heap.record,
      hk.object_eq (hρ.object_lt hop).2]
    exact hρ.entries hop
  parent hop := by
    rw [Heap.parent?, Heap.proto, hh.object_eq (hρ.object_lt hop).1, Heap.parent?, Heap.proto,
      hk.object_eq (hρ.object_lt hop).2]
    exact hρ.parent hop
  name hf := by
    rw [hh.functionName_eq (hρ.function_lt hf).1, hk.functionName_eq (hρ.function_lt hf).2]
    exact hρ.name hf

end Corresponds

/-- Another array is renamed. -/
def withArray (ρ : Renaming) (a b : ℕ) : Renaming :=
  { ρ with arrays := fun x y => ρ.arrays x y ∨ x = a ∧ y = b }

/-- Another object is renamed. -/
def withObject (ρ : Renaming) (o p : ℕ) : Renaming :=
  { ρ with objects := fun x y => ρ.objects x y ∨ x = o ∧ y = p }

lemma le_withArray (ρ : Renaming) (a b : ℕ) : ρ ≤ ρ.withArray a b := ⟨.inl, id, id⟩

lemma le_withObject (ρ : Renaming) (o p : ℕ) : ρ ≤ ρ.withObject o p := ⟨id, .inl, id⟩

namespace Corresponds

/-- Two fresh arrays whose elements stand for each other may stand for each other. -/
lemma newArray (hρ : ρ.Corresponds h k) {xs ys : Array Value}
    (hxy : List.Forall₂ ρ.Matches xs.toList ys.toList) :
    (ρ.withArray h.arrays.size k.arrays.size).Corresponds (h.newArray xs).2 (k.newArray ys).2 := by
  have hgrown := hρ.keeps (h.keeps_newArray xs) (k.keeps_newArray ys)
  have hle := ρ.le_withArray h.arrays.size k.arrays.size
  have hold : ∀ {x y}, ρ.arrays x y → x ≠ h.arrays.size ∧ y ≠ k.arrays.size := fun hab =>
    ⟨(hρ.array_lt hab).1.ne, (hρ.array_lt hab).2.ne⟩
  exact
    { object_iff := hgrown.object_iff
      object_lt := hgrown.object_lt
      function_lt := hgrown.function_lt
      name := hgrown.name
      parent := hgrown.parent
      entries := fun hop => (hgrown.entries hop).imp fun _ _ hxy => matchesEntry_mono hxy hle
      array_iff := by
        rintro a b a' b' (hab | ⟨rfl, rfl⟩) (hab' | ⟨rfl, rfl⟩)
        · exact hρ.array_iff hab hab'
        · exact iff_of_false (hold hab).1 (hold hab).2
        · exact iff_of_false (hold hab').1.symm (hold hab').2.symm
        · exact iff_of_true rfl rfl
      array_lt := by
        rintro a b (hab | ⟨rfl, rfl⟩)
        · exact hgrown.array_lt hab
        · simp [Heap.newArray]
      items := by
        rintro a b (hab | ⟨rfl, rfl⟩)
        · exact (hgrown.items hab).imp fun _ _ hvw => hvw.mono hle
        · rw [show (h.newArray xs).2.items h.arrays.size = xs from h.items_newArray_self xs,
            show (k.newArray ys).2.items k.arrays.size = ys from k.items_newArray_self ys]
          exact hxy.imp fun _ _ hvw => hvw.mono hle }

/-- Two fresh objects that are empty may stand for each other. -/
lemma newObject (hρ : ρ.Corresponds h k) :
    (ρ.withObject h.objects.size k.objects.size).Corresponds (h.newObject .empty none).2
      (k.newObject .empty none).2 := by
  have hgrown := hρ.keeps (h.keeps_newObject .empty none) (k.keeps_newObject .empty none)
  have hle := ρ.le_withObject h.objects.size k.objects.size
  have hold : ∀ {x y}, ρ.objects x y → x ≠ h.objects.size ∧ y ≠ k.objects.size := fun hop =>
    ⟨(hρ.object_lt hop).1.ne, (hρ.object_lt hop).2.ne⟩
  have hfresh : ∀ h : Heap, (h.newObject .empty none).2.object h.objects.size = ⟨.empty, none⟩ :=
    fun h => h.object_newObject_self .empty none
  exact
    { array_iff := hgrown.array_iff
      array_lt := hgrown.array_lt
      function_lt := hgrown.function_lt
      name := hgrown.name
      items := fun hab => (hgrown.items hab).imp fun _ _ hvw => hvw.mono hle
      object_iff := by
        rintro o p o' p' (hop | ⟨rfl, rfl⟩) (hop' | ⟨rfl, rfl⟩)
        · exact hρ.object_iff hop hop'
        · exact iff_of_false (hold hop).1 (hold hop).2
        · exact iff_of_false (hold hop').1.symm (hold hop').2.symm
        · exact iff_of_true rfl rfl
      object_lt := by
        rintro o p (hop | ⟨rfl, rfl⟩)
        · exact hgrown.object_lt hop
        · simp [Heap.newObject]
      entries := by
        rintro o p (hop | ⟨rfl, rfl⟩)
        · exact (hgrown.entries hop).imp fun _ _ hxy => matchesEntry_mono hxy hle
        · rw [Heap.record, hfresh, Heap.record, hfresh]
          exact .nil
      parent := by
        rintro o p (hop | ⟨rfl, rfl⟩)
        · have hparent := hgrown.parent hop
          generalize (h.newObject .empty none).2.parent? o = x,
            (k.newObject .empty none).2.parent? p = y at hparent
          cases hparent with
          | none => exact .none
          | some hq => exact .some (.inl hq)
        · rw [Heap.parent?, Heap.proto, hfresh, Heap.parent?, Heap.proto, hfresh]
          exact .none }

/-- The same property is written to objects that stand for each other. -/
lemma setOwn (hρ : ρ.Corresponds h k) (hop : ρ.objects o p) (key : String) {v w : Value}
    (hvw : ρ.Matches v w) : ρ.Corresponds (h.setOwn o key v) (k.setOwn p key w) := by
  obtain ⟨ho, hp⟩ := hρ.object_lt hop
  exact
    { array_iff := hρ.array_iff
      object_iff := hρ.object_iff
      array_lt := hρ.array_lt
      object_lt := fun hq => by simpa [Heap.setOwn, Heap.setRecord] using hρ.object_lt hq
      function_lt := hρ.function_lt
      items := hρ.items
      name := hρ.name
      parent := fun hq => by
        rw [Heap.parent?_setOwn, Heap.parent?_setOwn]
        exact hρ.parent hq
      entries := by
        intro q q' hq
        by_cases hqo : q = o
        · obtain rfl := hqo
          obtain rfl := (hρ.object_iff hq hop).1 rfl
          rw [Heap.setOwn, Heap.record_setRecord_self _ ho, Heap.setOwn,
            Heap.record_setRecord_self _ hp]
          exact setEntry_rel (hρ.entries hop) key hvw
        · have hqp : q' ≠ p := fun h => hqo ((hρ.object_iff hq hop).2 h)
          rw [Heap.record, Heap.setOwn, Heap.object_setRecord_of_ne _ hqo, Heap.record, Heap.setOwn,
            Heap.object_setRecord_of_ne _ hqp]
          exact hρ.entries hq }

end Corresponds

end Renaming

/-! ## Computations that run alike -/

/-- Results that stand for each other: the same error, or values of which the relation holds. -/
inductive Agree (Q : α → β → Prop) : Except Error α → Except Error β → Prop
  | ok {a : α} {b : β} (h : Q a b) : Agree Q (.ok a) (.ok b)
  | error (e : Error) : Agree Q (.error e) (.error e)

/-- The heaps of two stores correspond, and each still has the containers of another heap. -/
structure Renaming.Relates (ρ : Renaming) (b c : Heap) (s₁ s₂ : Store σ) : Prop where
  corresponds : ρ.Corresponds s₁.heap s₂.heap
  left : b.Keeps s₁.heap
  right : c.Keeps s₂.heap

/-- The second computation ends where the first one does, with a result that stands for that of the
first one; and neither changes the containers of the two heaps.  This goes for all renamings that go
further than the given one. -/
def Mirrors (b c : Heap) (ρ : Renaming) (Q : Renaming → α → β → Prop) (m : Compute (Store σ) α)
    (m' : Compute (Store σ) β) : Prop :=
  ∀ ⦃ρ₁⦄, ρ ≤ ρ₁ → ∀ ⦃s₁ s₂ : Store σ⦄, ρ₁.Relates b c s₁ s₂ → ∀ ⦃r t₁⦄,
    runOn m s₁ = some (r, t₁) → ∃ ρ₂ r' t₂, ρ₁ ≤ ρ₂ ∧ ρ₂.Relates b c t₁ t₂ ∧
      runOn m' s₂ = some (r', t₂) ∧ Agree (Q ρ₂) r r'

namespace Mirrors

variable {b c : Heap} {ρ ρ' : Renaming} {Q : Renaming → α → β → Prop} {Q' : Renaming → γ → δ → Prop}
  {m : Compute (Store σ) α} {m' : Compute (Store σ) β}

lemma mono (hm : Mirrors b c ρ Q m m') (hle : ρ ≤ ρ') : Mirrors b c ρ' Q m m' :=
  fun _ hle' => hm (hle.trans hle')

lemma pure {x : α} {y : β} (hxy : ∀ ρ₁, ρ ≤ ρ₁ → Q ρ₁ x y) :
    Mirrors b c ρ Q (Pure.pure x : Compute (Store σ) α) (Pure.pure y) := by
  intro ρ₁ hle s₁ s₂ hs r t₁ h
  cases h
  exact ⟨ρ₁, _, s₂, le_rfl, hs, rfl, .ok (hxy ρ₁ hle)⟩

lemma throw (e : Error) :
    Mirrors b c ρ Q (MonadExcept.throw e : Compute (Store σ) α) (MonadExcept.throw e) := by
  intro ρ₁ _ s₁ s₂ hs r t₁ h
  cases h
  exact ⟨ρ₁, _, s₂, le_rfl, hs, rfl, .error e⟩

/-- What follows has to mirror for results that stand for each other. -/
lemma bind {f : α → Compute (Store σ) γ} {f' : β → Compute (Store σ) δ} (hm : Mirrors b c ρ Q m m')
    (hf : ∀ {ρ₁ x y}, ρ ≤ ρ₁ → Q ρ₁ x y → Mirrors b c ρ₁ Q' (f x) (f' y)) :
    Mirrors b c ρ Q' (m >>= f) (m' >>= f') := by
  intro ρ₁ hle s₁ s₂ hs r t₁ h
  rcases Compute.runOn_bind_cases h with ⟨e, hrun, rfl⟩ | ⟨x, u₁, hrun, hrest⟩
  · obtain ⟨ρ₂, r', u₂, hle₂, hu, hrun', hagree⟩ := hm hle hs hrun
    cases hagree
    exact ⟨ρ₂, _, u₂, hle₂, hu, Compute.runOn_bind_of_error hrun', .error e⟩
  · obtain ⟨ρ₂, r', u₂, hle₂, hu, hrun', hagree⟩ := hm hle hs hrun
    cases hagree with
    | ok hxy =>
      obtain ⟨ρ₃, r', t₂, hle₃, ht, hrest', hagree⟩ :=
        hf (hle.trans hle₂) hxy le_rfl hu hrest
      exact ⟨ρ₃, r', t₂, hle₂.trans hle₃, ht, (Compute.runOn_bind_of_ok hrun').trans hrest', hagree⟩

lemma reading {f : Heap → α} {f' : Heap → β}
    (hf : ∀ {ρ₁ h k}, ρ ≤ ρ₁ → ρ₁.Corresponds h k → Q ρ₁ (f h) (f' k)) :
    Mirrors b c ρ Q (Store.reading f : Compute (Store σ) α) (Store.reading f') := by
  intro ρ₁ hle s₁ s₂ hs r t₁ h
  cases h
  exact ⟨ρ₁, _, s₂, le_rfl, hs, rfl, .ok (hf hle hs.corresponds)⟩

lemma readingEndless {f : Heap → Option α} {f' : Heap → Option β}
    (hf : ∀ {ρ₁ h k x}, ρ ≤ ρ₁ → ρ₁.Corresponds h k → f h = some x →
      ∃ y, f' k = some y ∧ Q ρ₁ x y) :
    Mirrors b c ρ Q (Store.readingEndless f : Compute (Store σ) α) (Store.readingEndless f') := by
  intro ρ₁ hle s₁ s₂ hs r t₁ h
  obtain ⟨x, hx, hend⟩ := Option.map_eq_some_iff.1 h
  cases hend
  obtain ⟨y, hy, hxy⟩ := hf hle hs.corresponds hx
  refine ⟨ρ₁, .ok y, s₂, le_rfl, hs, ?_, .ok hxy⟩
  exact Option.map_eq_some_iff.2 ⟨y, hy, rfl⟩

/-- Fresh arrays stand for each other if their elements do. -/
lemma newArray {xs ys : Array Value} (hxy : List.Forall₂ ρ.Matches xs.toList ys.toList) :
    Mirrors b c ρ (fun ρ₁ => ρ₁.arrays) (Store.making (·.newArray xs) : Compute (Store σ) ℕ)
      (Store.making (·.newArray ys)) := by
  intro ρ₁ hle s₁ s₂ hs r t₁ h
  cases h
  refine ⟨_, _, _, ρ₁.le_withArray s₁.heap.arrays.size s₂.heap.arrays.size, ?_, rfl,
    .ok (.inr ⟨rfl, rfl⟩)⟩
  exact ⟨hs.corresponds.newArray (hxy.imp fun _ _ hvw => hvw.mono hle),
    hs.left.trans (Heap.keeps_newArray _ _), hs.right.trans (Heap.keeps_newArray _ _)⟩

/-- Objects stand for each other and do not belong to the heaps that are kept. -/
def Fresh (b c : Heap) (ρ : Renaming) (o p : ℕ) : Prop :=
  ρ.objects o p ∧ b.objects.size ≤ o ∧ c.objects.size ≤ p

lemma Fresh.mono {o p : ℕ} (hop : Fresh b c ρ o p) (hle : ρ ≤ ρ') : Fresh b c ρ' o p :=
  ⟨hle.2.1 hop.1, hop.2⟩

lemma newObject : Mirrors b c ρ (Fresh b c)
    (Store.making (·.newObject .empty none) : Compute (Store σ) ℕ)
    (Store.making (·.newObject .empty none)) := by
  intro ρ₁ _ s₁ s₂ hs r t₁ h
  cases h
  refine ⟨_, _, _, ρ₁.le_withObject s₁.heap.objects.size s₂.heap.objects.size, ?_, rfl,
    .ok ⟨.inr ⟨rfl, rfl⟩, hs.left.size_objects_le, hs.right.size_objects_le⟩⟩
  exact ⟨hs.corresponds.newObject, hs.left.trans (Heap.keeps_newObject _ _ _),
    hs.right.trans (Heap.keeps_newObject _ _ _)⟩

lemma setOwn {o p : ℕ} (hop : Fresh b c ρ o p) (key : String) {v w : Value}
    (hvw : ρ.Matches v w) : Mirrors b c ρ (fun _ _ _ => True)
      (Store.changing (·.setOwn o key v) : Compute (Store σ) Unit)
      (Store.changing (·.setOwn p key w)) := by
  intro ρ₁ hle s₁ s₂ hs r t₁ h
  cases h
  refine ⟨ρ₁, _, _, le_rfl, ?_, rfl, .ok trivial⟩
  exact ⟨hs.corresponds.setOwn (hle.2.1 hop.1) key (hvw.mono hle), hs.left.setOwn hop.2.1 key v,
    hs.right.setOwn hop.2.2 key w⟩

end Mirrors

/-- What the filter does depends on the contents of its arguments alone: it runs alike for arguments
that stand for each other, and leaves alone the containers that are there. -/
def Library.Contentual (lib : Library σ) (behaviour : String) : Prop :=
  ∀ b c ρ args args', List.Forall₂ ρ.Matches args args' →
    Mirrors b c ρ Renaming.Matches (lib.filter behaviour args) (lib.filter behaviour args')

/-- The filter runs alike for arguments that stand for each other under a renaming that goes at
least as far as the given one. -/
def Library.RunsAlike (lib : Library σ) (b c : Heap) (ρ : Renaming) (behaviour : String) : Prop :=
  ∀ ⦃ρ₁⦄, ρ ≤ ρ₁ → ∀ args args', List.Forall₂ ρ₁.Matches args args' →
    Mirrors b c ρ₁ Renaming.Matches (lib.filter behaviour args) (lib.filter behaviour args')

lemma Library.Contentual.runsAlike {lib : Library σ} {behaviour : String}
    (hlib : lib.Contentual behaviour) (b c : Heap) (ρ : Renaming) :
    lib.RunsAlike b c ρ behaviour :=
  fun ρ₁ _ args args' => hlib b c ρ₁ args args'

/-! ## Expressions that run alike -/

namespace Env

variable {env env' : Env} {b c : Heap} {ρ : Renaming}

lemma mirrors_guardMember (hsource : env'.source = env.source) (key : String) :
    Mirrors b c ρ (fun _ _ _ => True) (env.guardMember key : Compute (Store σ) Unit)
      (env'.guardMember key) := by
  unfold guardMember
  rw [hsource]
  split
  · exact .throw _
  · exact .pure fun _ _ => trivial

lemma mirrors_guardValue (hsource : env'.source = env.source) {v w : Value} (hvw : ρ.Matches v w) :
    Mirrors b c ρ (fun _ _ _ => True) (env.guardValue v : Compute (Store σ) Unit)
      (env'.guardValue w) := by
  unfold guardValue
  rw [hsource]
  refine (Mirrors.reading fun hle hρ => hρ.forbidden?_eq (hvw.mono hle)).bind ?_
  rintro ρ₁ x y - rfl
  cases x with
  | none => exact .pure fun _ _ => trivial
  | some what => exact .throw _

lemma mirrors_locateMember (hsource : env'.source = env.source) {v w : Value}
    (hvw : ρ.Matches v w) (key : String) :
    Mirrors b c ρ (fun ρ₁ loc loc' => ρ₁.Matches loc.value loc'.value)
      (env.locateMember .read v key : Compute (Store σ) Location)
      (env'.locateMember .read w key) := by
  unfold locateMember
  refine (mirrors_guardMember hsource key).bind fun hle _ => ?_
  simp only [reduceCtorEq, if_false]
  refine (Mirrors.reading (Q := Renaming.Matches) fun hle' hρ => ?_).bind fun hle' hxy =>
    (mirrors_guardValue hsource hxy).bind fun hle _ => .pure fun _ hle' => (hxy.mono hle).mono hle'
  rw [hvw.isNullish_eq]
  split
  · exact .plain rfl
  · exact hρ.readsAlike.getMember (hvw.mono (hle.trans hle')) key

lemma mirrors_locateName (hsource : env'.source = env.source)
    (hcontext : ρ.Matches env.context env'.context)
    (hlocals : Option.Rel ρ.Matches env.locals env'.locals) (name : String) :
    Mirrors b c ρ (fun ρ₁ loc loc' => ρ₁.Matches loc.value loc'.value)
      (env.locateName name : Compute (Store σ) Location) (env'.locateName name) := by
  unfold locateName
  refine (mirrors_guardMember hsource name).bind fun hle _ => ?_
  refine (Mirrors.reading (Q := Renaming.Matches) fun hle' hρ => ?_).bind fun hle' hbase => ?_
  · have hle := hle.trans hle'
    unfold holder
    generalize env.locals = x, env'.locals = y at hlocals
    cases hlocals with
    | none => exact hcontext.mono hle
    | some hlocals =>
      dsimp only
      rw [hρ.hasMember_eq (hlocals.mono hle)]
      split
      · exact hlocals.mono hle
      · exact hcontext.mono hle
  · refine (Mirrors.reading (Q := Renaming.Matches) fun hle hρ =>
      hρ.readsAlike.getMember (hbase.mono hle) name).bind fun hle' hxy => ?_
    exact (mirrors_guardValue hsource hxy).bind fun hle _ => .pure fun _ hle' =>
      (hxy.mono hle).mono hle'

end Env

namespace Expr

/-- The expression puts expressions with the property together: by literals, operators, members,
choices and filters, but by no call, by no assignment and without `this` and `$locals`. -/
inductive MadeOf (P : Expr → Prop) : Expr → Prop
  | part {e : Expr} (he : P e) : MadeOf P e
  | literal (l : Literal) : MadeOf P (.literal l)
  | array {items : List Expr} (hitems : ∀ e ∈ items, MadeOf P e) : MadeOf P (.array items)
  | object {properties : List (PropertyKey × Expr)}
    (hproperties : ∀ x ∈ properties, MadeOf P x.2) : MadeOf P (.object properties)
  | member {base : Expr} (hbase : MadeOf P base) (key : String) :
    MadeOf P (.place (.member base key))
  | element {base key : Expr} (hbase : MadeOf P base) (hkey : MadeOf P key) :
    MadeOf P (.place (.element base key))
  | filter (name : String) {input : Expr} {args : List Expr} (hinput : MadeOf P input)
    (hargs : ∀ e ∈ args, MadeOf P e) : MadeOf P (.filter name input args)
  | unary (op : UnaryOp) {operand : Expr} (hoperand : MadeOf P operand) :
    MadeOf P (.unary op operand)
  | binary (op : BinaryOp) {left right : Expr} (hleft : MadeOf P left) (hright : MadeOf P right) :
    MadeOf P (.binary op left right)
  | logical (op : LogicalOp) {left right : Expr} (hleft : MadeOf P left)
    (hright : MadeOf P right) : MadeOf P (.logical op left right)
  | conditional {test consequent alternate : Expr} (htest : MadeOf P test)
    (hconsequent : MadeOf P consequent) (halternate : MadeOf P alternate) :
    MadeOf P (.conditional test consequent alternate)

section Evaluation

variable {lib : Library σ} {env env' : Env} {b c : Heap} {ρ : Renaming}

lemma mirrors_evalList {l : List Expr} (hl : ∀ e ∈ l, Mirrors b c ρ Renaming.Matches
      (e.eval lib env .read) (e.eval lib env' .read)) :
    Mirrors b c ρ (fun ρ₁ => List.Forall₂ ρ₁.Matches) (evalList lib env l)
      (evalList lib env' l) := by
  induction l generalizing ρ with
  | nil =>
    simp only [evalList]
    exact .pure fun _ _ => .nil
  | cons e l ih =>
    simp only [evalList]
    refine (hl e (.head _)).bind fun hle hvw => ?_
    refine (ih fun e he => (hl e (.tail _ he)).mono hle).bind fun hle hrest => ?_
    exact .pure fun _ hle' => .cons (hvw.mono (hle.trans hle')) (hrest.imp fun _ _ h => h.mono hle')

lemma mirrors_evalProperties {l : List (PropertyKey × Expr)} {o p : ℕ}
    (hop : Mirrors.Fresh b c ρ o p) (hl : ∀ x ∈ l, Mirrors b c ρ Renaming.Matches
      (x.2.eval lib env .read) (x.2.eval lib env' .read)) :
    Mirrors b c ρ (fun _ _ _ => True) (evalProperties lib env o l)
      (evalProperties lib env' p l) := by
  induction l generalizing ρ with
  | nil =>
    simp only [evalProperties]
    exact .pure fun _ _ => trivial
  | cons x l ih =>
    obtain ⟨key, e⟩ := x
    simp only [evalProperties]
    refine (hl _ (.head _)).bind fun hle hvw => ?_
    refine (Mirrors.setOwn (hop.mono hle) key.text hvw).bind fun hle' _ => ?_
    have hle := hle.trans hle'
    exact ih (hop.mono hle) fun x hx => (hl x (.tail _ hx)).mono hle

/-- A name runs alike if what it is looked up in stands for each other. -/
lemma mirrors_name (hsource : env'.source = env.source)
    (hcontext : ρ.Matches env.context env'.context)
    (hlocals : Option.Rel ρ.Matches env.locals env'.locals) (name : String) :
    Mirrors b c ρ Renaming.Matches (eval lib env .read (.place (.name name)))
      (eval lib env' .read (.place (.name name))) := by
  simp only [eval, locate]
  exact (Env.mirrors_locateName hsource hcontext hlocals name).bind fun _ hloc =>
    .pure fun _ hle => hloc.mono hle

/-- An expression runs alike if the parts that it puts together do. -/
theorem mirrors_eval {P : Expr → Prop} (hsource : env'.source = env.source)
    (hfilters : env'.filters = env.filters)
    (hlib : ∀ name behaviour, env.filters.lookup name = some behaviour →
      lib.RunsAlike b c ρ behaviour)
    (hparts : ∀ e, P e → Mirrors b c ρ Renaming.Matches (e.eval lib env .read)
      (e.eval lib env' .read))
    {e : Expr} (he : e.MadeOf P) :
    Mirrors b c ρ Renaming.Matches (e.eval lib env .read) (e.eval lib env' .read) := by
  induction he with
  | part he => exact hparts _ he
  | literal l =>
    simp only [eval]
    refine .pure fun _ _ => .plain ?_
    cases l <;> rfl
  | array _ ih =>
    simp only [eval]
    refine (mirrors_evalList ih).bind fun hle hvalues => ?_
    exact (Mirrors.newArray hvalues).bind fun _ hab => .pure fun _ hle => .array (hle.1 hab)
  | object _ ih =>
    simp only [eval]
    refine Mirrors.newObject.bind fun hle hop => ?_
    refine (mirrors_evalProperties hop fun x hx => (ih x hx).mono hle).bind fun hle' _ => ?_
    exact .pure fun _ hle => .object (hle.2.1 (hle'.2.1 hop.1))
  | member _ key ih =>
    simp only [eval, locate, bind_assoc]
    refine ih.bind fun _ hvw => ?_
    exact (Env.mirrors_locateMember hsource hvw key).bind fun _ hloc => .pure fun _ hle =>
      hloc.mono hle
  | element _ _ ihbase ihkey =>
    simp only [eval, locate, bind_assoc]
    refine ihbase.bind fun hle hvw => (ihkey.mono hle).bind fun hle' hkey => ?_
    refine (Mirrors.readingEndless (Q := fun _ => Eq) fun hle hρ hx =>
      ⟨_, hρ.readsAlike.text?_eq (hkey.mono hle) ▸ hx, rfl⟩).bind fun hle'' htext => ?_
    obtain rfl := htext
    refine (Env.mirrors_locateMember hsource (hvw.mono (hle'.trans hle'')) _).bind fun _ hloc => ?_
    exact .pure fun _ hle => hloc.mono hle
  | filter name _ _ ihinput ihargs =>
    simp only [eval]
    refine ihinput.bind fun hle hvw => ?_
    refine (mirrors_evalList fun e he => (ihargs e he).mono hle).bind fun hle' hargs => ?_
    unfold Env.applyFilter
    rw [hfilters]
    split
    · next behaviour hbehaviour =>
      exact hlib _ _ hbehaviour (hle.trans hle') _ _ (.cons (hvw.mono hle') hargs)
    · exact .throw _
  | unary op _ ih =>
    simp only [eval]
    refine ih.bind fun _ hvw => Mirrors.readingEndless fun hle hρ hx => ?_
    exact ⟨_, hρ.readsAlike.unary_eq op (hvw.mono hle) ▸ hx, .plain (Heap.isContainer_of_unary hx)⟩
  | binary op _ _ ihleft ihright =>
    simp only [eval]
    refine ihleft.bind fun hle hvw => (ihright.mono hle).bind fun hle' hvw' => ?_
    refine Mirrors.readingEndless fun hle hρ hx => ?_
    exact ⟨_, hρ.binary_eq op (hvw.mono (hle'.trans hle)) (hvw'.mono hle) ▸ hx,
      .plain (Heap.isContainer_of_binary hx)⟩
  | logical op _ _ ihleft ihright =>
    cases op with
    | and =>
      simp only [eval]
      refine ihleft.bind fun hle hvw => ?_
      rw [hvw.truthy_eq]
      split
      · exact ihright.mono hle
      · exact .pure fun _ hle => hvw.mono hle
    | or =>
      simp only [eval]
      refine ihleft.bind fun hle hvw => ?_
      rw [hvw.truthy_eq]
      split
      · exact .pure fun _ hle => hvw.mono hle
      · exact ihright.mono hle
  | conditional _ _ _ ihtest ihconsequent ihalternate =>
    simp only [eval]
    refine ihtest.bind fun hle hvw => ?_
    rw [hvw.truthy_eq]
    split
    · exact ihconsequent.mono hle
    · exact ihalternate.mono hle

end Evaluation

end Expr

end DataBinding
