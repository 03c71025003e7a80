import DataBinding.Proofs.Freshness
import DataBinding.Proofs.Steps

/-!
# Two runs side by side

`Concur` says of two computations that both end, with the same error or with results of which a
relation holds, and that neither writes to what was there before.  The relation that evaluations
carry from step to step is `Twins`: the two runs hold deep-equal values, and each of these was made
since its run began.

An assignment writes to a value that was made before the assigned one, so the assigned one stays as
it is (`Env.SameBut.store`).  What it has written to is not read again, which is why it does not
matter that deep equality does not see which containers are shared.  A filter carries twins over to
twins if it is `Library.Repeatable`: it gives deep-equal results for deep-equal arguments, writes to
no container, and returns nothing but what it has made or what its arguments hold.
-/

namespace DataBinding

open Compute (runOn)
open Relation (ReflTransGen)

variable {σ α β γ δ : Type}

/-! ## Two runs side by side -/

/-- Two stores still have the containers of two earlier heaps as they were. -/
structure BothKeep (b c : Heap) (s t : Store σ) : Prop where
  left : b.Keeps s.heap
  right : c.Keeps t.heap

lemma BothKeep.refl (s t : Store σ) : BothKeep s.heap t.heap s t := ⟨.refl _, .refl _⟩

lemma BothKeep.trans {b c : Heap} {s t s' t' : Store σ} (h : BothKeep b c s t)
    (h' : BothKeep s.heap t.heap s' t') : BothKeep b c s' t' :=
  ⟨h.left.trans h'.left, h.right.trans h'.right⟩

/-- Both computations end, with the same error or with results of which the relation holds, and each
of them writes to none of the containers of an earlier heap. -/
def Concur (b c : Heap) (Q : Store σ → Store σ → α → β → Prop) (m : Compute (Store σ) α)
    (m' : Compute (Store σ) β) (s t : Store σ) : Prop :=
  ∃ r s' r' t', runOn m s = some (r, s') ∧ runOn m' t = some (r', t') ∧ BothKeep b c s' t' ∧
    Agree (Q s' t') r r'

namespace Concur

variable {b c b' c' : Heap} {s t s' t' : Store σ} {m : Compute (Store σ) α}
  {m' : Compute (Store σ) β} {f : α → Compute (Store σ) γ} {f' : β → Compute (Store σ) δ}
  {Q P : Store σ → Store σ → α → β → Prop} {Q' : Store σ → Store σ → γ → δ → Prop}

lemma pure {x : α} {y : β} (hk : BothKeep b c s t) (hxy : Q s t x y) :
    Concur b c Q (Pure.pure x) (Pure.pure y) s t :=
  ⟨_, s, _, t, rfl, rfl, hk, .ok hxy⟩

lemma throw (hk : BothKeep b c s t) (e : Error) :
    Concur b c Q (MonadExcept.throw e) (MonadExcept.throw e) s t :=
  ⟨_, s, _, t, rfl, rfl, hk, .error e⟩

/-- What follows has to concur wherever the first steps have led. -/
lemma bind (hb : b.Keeps b') (hc : c.Keeps c') (hm : Concur b' c' Q m m' s t)
    (hf : ∀ {s' t' x y}, BothKeep b' c' s' t' → Q s' t' x y → Concur b c Q' (f x) (f' y) s' t') :
    Concur b c Q' (m >>= f) (m' >>= f') s t := by
  obtain ⟨r, s', r', t', hrun, hrun', hk, hagree⟩ := hm
  cases hagree with
  | ok hxy =>
    obtain ⟨r, u, r', v, hrest, hrest', hk, hagree⟩ := hf hk hxy
    exact ⟨r, u, r', v, (Compute.runOn_bind_of_ok hrun).trans hrest,
      (Compute.runOn_bind_of_ok hrun').trans hrest', hk, hagree⟩
  | error e =>
    exact ⟨_, s', _, t', Compute.runOn_bind_of_error hrun, Compute.runOn_bind_of_error hrun',
      ⟨hb.trans hk.left, hc.trans hk.right⟩, .error e⟩

/-- First steps that run like this are followed from where they have led. -/
lemma bind_of_runs {x : α} {y : β} (hrun : runOn m s = some (.ok x, s'))
    (hrun' : runOn m' t = some (.ok y, t')) (hf : Concur b c Q' (f x) (f' y) s' t') :
    Concur b c Q' (m >>= f) (m' >>= f') s t := by
  obtain ⟨r, u, r', v, hrest, hrest', hend⟩ := hf
  exact ⟨r, u, r', v, (Compute.runOn_bind_of_ok hrun).trans hrest,
    (Compute.runOn_bind_of_ok hrun').trans hrest', hend⟩

lemma mono (hm : Concur b' c' P m m' s t) (hb : b.Keeps b') (hc : c.Keeps c')
    (himp : ∀ {s' t' x y}, P s' t' x y → Q s' t' x y) : Concur b c Q m m' s t := by
  obtain ⟨r, s', r', t', hrun, hrun', hk, hagree⟩ := hm
  refine ⟨r, s', r', t', hrun, hrun', ⟨hb.trans hk.left, hc.trans hk.right⟩, ?_⟩
  cases hagree with
  | ok hxy => exact .ok (himp hxy)
  | error e => exact .error e

/-- A reading that yields the same in both heaps, and that has an end. -/
lemma readingEndless {g g' : Heap → Option α} {Q : Store σ → Store σ → α → α → Prop}
    (hk : BothKeep b c s t) (heq : g s.heap = g' t.heap) (hends : g s.heap ≠ none)
    (hx : ∀ x, g s.heap = some x → Q s t x x) :
    Concur b c Q (Store.readingEndless g) (Store.readingEndless g') s t := by
  obtain ⟨x, hsome⟩ := Option.ne_none_iff_exists'.1 hends
  refine ⟨.ok x, s, .ok x, t, ?_, ?_, hk, .ok (hx x hsome)⟩
  · rw [Store.runOn_readingEndless, hsome]
    rfl
  · rw [Store.runOn_readingEndless, ← heq, hsome]
    rfl

/-- A write concurs, and its outcome is known of both heaps. -/
lemma write_bind {key : String} {base base' v w : Value} {f : Unit → Compute (Store σ) γ}
    {f' : Unit → Compute (Store σ) δ} (hk : BothKeep b c s t)
    (hbase : s.heap.DeepEqual t.heap base base') (hvw : s.heap.DeepEqual t.heap v w)
    (hf : ∀ h k, s.heap.setMember base key v = some (.ok h) →
      t.heap.setMember base' key w = some (.ok k) →
      Concur b c Q' (f ()) (f' ()) { s with heap := h } { t with heap := k }) :
    Concur b c Q' (Store.changingIf (·.setMember base key v) >>= f)
      (Store.changingIf (·.setMember base' key w) >>= f') s t := by
  obtain ⟨x, y, hx, hy, hxy⟩ := hbase.setMember hvw key
  have hrun := Store.runOn_changingIf (·.setMember base key v) s
  have hrun' := Store.runOn_changingIf (·.setMember base' key w) t
  simp only [hx, hy, Option.map_some] at hrun hrun'
  cases hxy with
  | ok => exact .bind_of_runs hrun hrun' (hf _ _ hx hy)
  | error e =>
    exact ⟨_, s, _, t, Compute.runOn_bind_of_error hrun, Compute.runOn_bind_of_error hrun', hk,
      .error _⟩

end Concur

/-! ## Values that two runs have made -/

/-- Deep-equal values of two stores, each made since an earlier time. -/
structure Twins (b c : Heap) (s t : Store σ) (v w : Value) : Prop where
  equal : s.heap.DeepEqual t.heap v w
  left : b.MadeSince s.heap v
  right : c.MadeSince t.heap w

namespace Twins

variable {b c : Heap} {s t s' t' : Store σ} {v w v' w' : Value}

lemma of_isAtom (hv : v.IsAtom) : Twins b c s t v v :=
  ⟨.of_eq_of_isAtom hv, .of_isAtom hv, .of_isAtom hv⟩

lemma getMember (hvw : Twins b c s t v w) (key : String) :
    Twins b c s t (s.heap.getMember v key) (t.heap.getMember w key) :=
  ⟨hvw.equal.getMember key, hvw.left.getMember key, hvw.right.getMember key⟩

/-- Twins stay twins where nothing of them changes. -/
lemma of_unchanged (hvw : Twins b c s t v w) (hv : s.heap.Unchanged s'.heap v)
    (hw : t.heap.Unchanged t'.heap w) : Twins b c s' t' v w :=
  ⟨hvw.equal.of_unchanged hv hw, hvw.left.of_unchanged hv, hvw.right.of_unchanged hw⟩

lemma later (hvw : Twins b c s t v w) (hk : BothKeep s.heap t.heap s' t') : Twins b c s' t' v w :=
  hvw.of_unchanged (hvw.left.complete.unchanged_of_keeps hk.left)
    (hvw.right.complete.unchanged_of_keeps hk.right)

/-- Twins made since some time were made since any earlier time. -/
lemma since (hvw : Twins s.heap t.heap s' t' v w) (hk : BothKeep b c s t) :
    Twins b c s' t' v w :=
  ⟨hvw.equal, hvw.left.of_later fun _ => .of_keeps hk.left,
    hvw.right.of_later fun _ => .of_keeps hk.right⟩

/-- A container of a heap does not equal what was made since. -/
lemma strictEq_eq_false {h : Heap} {x y : Value} (hx : h.Owns x) (hy : ¬ h.Owns y) :
    x.strictEq y = false := by
  cases x with
  | array =>
    cases y with
    | array => exact beq_false_of_ne fun heq => hy (heq ▸ hx)
    | _ => rfl
  | object =>
    cases y with
    | object => exact beq_false_of_ne fun heq => hy (heq ▸ hx)
    | _ => rfl
  | _ => cases hx

/-- Of values that were made one after the other, two in each run, those in the one run are equal
just if those in the other are. -/
lemma strictEq_eq (hvw : Twins b c s t v w) (hvw' : Twins s.heap t.heap s' t' v' w') :
    v.strictEq v' = w.strictEq w' := by
  have hleft := hvw.left.has
  have hright := hvw.right.has
  obtain ⟨hequal, -, -⟩ := hvw
  cases hequal with
  | array =>
    rw [strictEq_eq_false (x := .array _) hleft hvw'.left.not_owns,
      strictEq_eq_false (x := .array _) hright hvw'.right.not_owns]
  | object =>
    rw [strictEq_eq_false (x := .object _) hleft hvw'.left.not_owns,
      strictEq_eq_false (x := .object _) hright hvw'.right.not_owns]
  | @plain v hv =>
    obtain ⟨hequal', -, -⟩ := hvw'
    cases hequal' with
    | array | object =>
      cases v with
      | array | object => cases hv
      | _ => rfl
    | _ => rfl
  | intrinsic | made =>
    obtain ⟨hequal', -, -⟩ := hvw'
    cases hequal' <;> rfl

lemma madeSince_of_forall₂ {vs ws : List Value} (hvw : List.Forall₂ (Twins b c s t) vs ws) :
    (∀ v ∈ vs, b.MadeSince s.heap v) ∧ ∀ w ∈ ws, c.MadeSince t.heap w :=
  ⟨((List.forall₂_and_left _ _).1 (hvw.imp fun _ _ h => ⟨h.left, h⟩)).1,
    ((List.forall₂_and_left _ _).1 (hvw.flip.imp fun _ _ h => ⟨h.right, h⟩)).1⟩

/-- Fresh arrays with twins for their elements are twins. -/
lemma newArray (hk : BothKeep b c s t) {xs ys : Array Value}
    (hxy : List.Forall₂ (Twins b c s t) xs.toList ys.toList) :
    Twins b c { s with heap := (s.heap.newArray xs).2 } { t with heap := (t.heap.newArray ys).2 }
      (.array (s.heap.newArray xs).1) (.array (t.heap.newArray ys).1) := by
  have hgrown : BothKeep s.heap t.heap { s with heap := (s.heap.newArray xs).2 }
      { t with heap := (t.heap.newArray ys).2 } :=
    ⟨s.heap.keeps_newArray xs, t.heap.keeps_newArray ys⟩
  obtain ⟨hleft, hright⟩ := madeSince_of_forall₂ hxy
  refine ⟨.array ?_ ?_, .newArray hk.left fun v hv => hleft v (Array.mem_toList_iff.2 hv),
    .newArray hk.right fun w hw => hright w (Array.mem_toList_iff.2 hw)⟩
  · simpa using hxy.length_eq
  · simp only [Heap.items_newArray_self]
    exact fun x hx => ((List.forall₂_iff_zip.1 hxy).2 hx).later hgrown |>.equal

end Twins

/-- Two objects that properties are written to one after another: the heaps have the same names in
them, and twins under these.  The twins were made since the objects were, so no write touches
them. -/
structure Filling (b c : Heap) (o p : ℕ) (s t : Store σ) : Prop where
  left : ∀ w, b.Owns w → s.heap.Owns w
  right : ∀ w, c.Owns w → t.heap.Owns w
  nodup : (s.heap.record o).keys.Nodup
  entries : List.Forall₂ (fun x y => x.1 = y.1 ∧ Twins b c s t x.2 y.2) (s.heap.record o).entries
    (t.heap.record p).entries
  parent_left : s.heap.parent? o = none
  parent_right : t.heap.parent? p = none

namespace Filling

variable {b c b' c' : Heap} {s t s' t' : Store σ} {o p : ℕ} {v w : Value}

/-- Fresh objects have no properties yet. -/
lemma newObject (s t : Store σ) :
    Filling (s.heap.newObject .empty none).2 (t.heap.newObject .empty none).2
      (s.heap.newObject .empty none).1 (t.heap.newObject .empty none).1
      { s with heap := (s.heap.newObject .empty none).2 }
      { t with heap := (t.heap.newObject .empty none).2 } where
  left _ := id
  right _ := id
  nodup := by
    rw [Heap.record_newObject_self]
    exact .nil
  entries := by
    rw [Heap.record_newObject_self, Heap.record_newObject_self]
    exact .nil
  parent_left := Heap.parent?_newObject _ _
  parent_right := Heap.parent?_newObject _ _

lemma later (hfilling : Filling b c o p s t) (ho : b.Owns (.object o)) (hp : c.Owns (.object p))
    (hk : BothKeep s.heap t.heap s' t') : Filling b c o p s' t' := by
  have hobject := hk.left.object_eq (hfilling.left _ ho)
  have hobject' := hk.right.object_eq (hfilling.right _ hp)
  refine ⟨fun w hw => (hfilling.left w hw).of_keeps hk.left,
    fun w hw => (hfilling.right w hw).of_keeps hk.right, ?_, ?_, ?_, ?_⟩
  · rw [Heap.record, hobject]
    exact hfilling.nodup
  · rw [Heap.record, hobject, Heap.record, hobject']
    exact hfilling.entries.imp fun _ _ h => ⟨h.1, h.2.later hk⟩
  · rw [Heap.parent?, Heap.proto, hobject]
    exact hfilling.parent_left
  · rw [Heap.parent?, Heap.proto, hobject']
    exact hfilling.parent_right

lemma setOwn (hfilling : Filling b c o p s t) (ho : b.Owns (.object o)) (hp : c.Owns (.object p))
    (key : String) (hvw : Twins b c s t v w) :
    Filling b c o p { s with heap := s.heap.setOwn o key v }
      { t with heap := t.heap.setOwn p key w } := by
  have hunchanged : ∀ {x y}, Twins b c s t x y →
      Twins b c { s with heap := s.heap.setOwn o key v } { t with heap := t.heap.setOwn p key w }
        x y := fun hxy =>
    hxy.of_unchanged (hxy.left.unchanged_of_write ho.has (s.heap.setMember_object o key v))
      (hxy.right.unchanged_of_write hp.has (t.heap.setMember_object p key w))
  have hrecord : (s.heap.setOwn o key v).record o = (s.heap.record o).set key v :=
    Heap.record_setRecord_self _ (hfilling.left _ ho) _
  have hrecord' : (t.heap.setOwn p key w).record p = (t.heap.record p).set key w :=
    Heap.record_setRecord_self _ (hfilling.right _ hp) _
  refine ⟨fun x hx => (hfilling.left x hx).setOwn o key v,
    fun x hx => (hfilling.right x hx).setOwn p key w, ?_, ?_, ?_, ?_⟩
  · rw [hrecord]
    exact Heap.nodup_keys_set hfilling.nodup key v
  · rw [hrecord, hrecord']
    exact Renaming.setEntry_rel (hfilling.entries.imp fun _ _ h => ⟨h.1, hunchanged h.2⟩) key
      (hunchanged hvw)
  · exact (s.heap.parent?_setOwn o key v o).trans hfilling.parent_left
  · exact (t.heap.parent?_setOwn p key w p).trans hfilling.parent_right

/-- When all is written the objects are twins. -/
lemma twins (hfilling : Filling b c o p s t) (ho : b.Owns (.object o)) (hp : c.Owns (.object p))
    (hb : ∀ w, b'.Owns w → b.Owns w) (hc : ∀ w, c'.Owns w → c.Owns w)
    (ho' : ¬ b'.Owns (.object o)) (hp' : ¬ c'.Owns (.object p)) :
    Twins b' c' s t (.object o) (.object p) := by
  have hleft : ∀ x ∈ (s.heap.record o).entries, b'.MadeSince s.heap x.2 :=
    ((List.forall₂_and_left _ _).1
      (hfilling.entries.imp fun _ _ h => ⟨h.2.left.of_later hb, h⟩)).1
  have hright : ∀ x ∈ (t.heap.record p).entries, c'.MadeSince t.heap x.2 :=
    ((List.forall₂_and_left _ _).1
      (hfilling.entries.flip.imp fun _ _ h => ⟨h.2.right.of_later hc, h⟩)).1
  refine ⟨.of_entries hfilling.nodup (hfilling.entries.imp fun _ _ h => ⟨h.1, h.2.equal⟩)
    hfilling.parent_left hfilling.parent_right, ?_, ?_⟩
  · exact .object (hfilling.left _ ho).has ho' hfilling.parent_left hleft
  · exact .object (hfilling.right _ hp).has hp' hfilling.parent_right hright

end Filling

/-- Fresh objects without properties are twins. -/
lemma Twins.newObject (s t : Store σ) :
    Twins s.heap t.heap { s with heap := (s.heap.newObject .empty none).2 }
      { t with heap := (t.heap.newObject .empty none).2 }
      (.object (s.heap.newObject .empty none).1) (.object (t.heap.newObject .empty none).1) :=
  (Filling.newObject s t).twins (Heap.owns_newObject _) (Heap.owns_newObject _)
    (fun _ => .of_keeps (s.heap.keeps_newObject _ _))
    (fun _ => .of_keeps (t.heap.keeps_newObject _ _)) (lt_irrefl _) (lt_irrefl _)

/-- Locations with twins for their holders and their values, and with the same key. -/
structure Spots (b c : Heap) (s t : Store σ) (loc loc' : Location) : Prop where
  base : Twins b c s t loc.base loc'.base
  key : loc'.key = loc.key
  value : Twins b c s t loc.value loc'.value

/-! ## What filters may do -/

/-- The filter gives deep-equal results, or the same error, for deep-equal arguments.  It writes to
no container, and its results hold nothing but what it has made or what its arguments hold. -/
structure Library.Repeatable (lib : Library σ) (behaviour : String) : Prop where
  alike : ∀ (s t : Store σ) (args args' : List Value), (∀ v ∈ args, s.heap.Complete v) →
    (∀ w ∈ args', t.heap.Complete w) → List.Forall₂ (s.heap.DeepEqual t.heap) args args' →
    ∃ r s' r' t', runOn (lib.filter behaviour args) s = some (r, s') ∧
      runOn (lib.filter behaviour args') t = some (r', t') ∧ Agree (s'.heap.DeepEqual t'.heap) r r'
  keeps : ∀ (s s' : Store σ) (args : List Value) (r : Except Error Value),
    (∀ v ∈ args, s.heap.Complete v) → runOn (lib.filter behaviour args) s = some (r, s') →
    s.heap.Keeps s'.heap
  returns : ∀ (s s' : Store σ) (args : List Value) (v : Value), (∀ v ∈ args, s.heap.Complete v) →
    runOn (lib.filter behaviour args) s = some (.ok v, s') → ∀ w, ReflTransGen s'.heap.Refers v w →
    s'.heap.Has w ∧ (s.heap.Owns w → ∃ x ∈ args, ReflTransGen s.heap.Refers x w)

namespace Library.Repeatable

variable {lib : Library σ} {behaviour : String} {b c : Heap} {s s' t : Store σ}
  {args args' : List Value} {v : Value}

/-- What comes of arguments that were made since some time was made since that time, too. -/
lemma madeSince (hlib : lib.Repeatable behaviour) (hb : b.Keeps s.heap)
    (hargs : ∀ x ∈ args, b.MadeSince s.heap x)
    (hrun : runOn (lib.filter behaviour args) s = some (.ok v, s')) : b.MadeSince s'.heap v := by
  intro w hw
  obtain ⟨hhas, hreturned⟩ := hlib.returns s s' args v (fun x hx => (hargs x hx).complete) hrun w hw
  refine ⟨hhas, fun hown => ?_⟩
  obtain ⟨x, hx, hreach⟩ := hreturned (hown.of_keeps hb)
  exact (hargs x hx w hreach).2 hown

/-- A filter that is repeatable concurs with itself on twins. -/
lemma concur (hlib : lib.Repeatable behaviour) (hk : BothKeep b c s t)
    (hargs : List.Forall₂ (Twins b c s t) args args') :
    Concur b c (Twins b c) (lib.filter behaviour args) (lib.filter behaviour args') s t := by
  obtain ⟨hleft, hright⟩ := Twins.madeSince_of_forall₂ hargs
  obtain ⟨r, s', r', t', hrun, hrun', hagree⟩ := hlib.alike s t args args'
    (fun v hv => (hleft v hv).complete) (fun w hw => (hright w hw).complete)
    (hargs.imp fun _ _ h => h.equal)
  have hks := hlib.keeps s s' args r (fun v hv => (hleft v hv).complete) hrun
  have hkt := hlib.keeps t t' args' r' (fun w hw => (hright w hw).complete) hrun'
  refine ⟨r, s', r', t', hrun, hrun', hk.trans ⟨hks, hkt⟩, ?_⟩
  cases hagree with
  | ok hequal =>
    exact .ok ⟨hequal, hlib.madeSince hk.left hleft hrun, hlib.madeSince hk.right hright hrun'⟩
  | error e => exact .error e

end Library.Repeatable

/-- Two surroundings of an expression that differ in what names are looked up in only; the filters
that keep no state are repeatable. -/
structure Env.SameBut (lib : Library σ) (stateful : String → Bool) (env env' : Env) : Prop where
  source : env'.source = env.source
  filters : env'.filters = env.filters
  repeatable : ∀ name behaviour, stateful name = false →
    env.filters.lookup name = some behaviour → lib.Repeatable behaviour

/-! ## Steps -/

namespace Env.SameBut

variable {lib : Library σ} {stateful : String → Bool} {env env' : Env} {b c : Heap}
  {s t s₁ t₁ : Store σ} {v w : Value} {loc loc' : Location}
  {f : Unit → Compute (Store σ) γ} {f' : Unit → Compute (Store σ) δ}
  {Q : Store σ → Store σ → γ → δ → Prop}

lemma guardMember_bind (hE : SameBut lib stateful env env') (hk : BothKeep b c s t) (key : String)
    (hf : Concur b c Q (f ()) (f' ()) s t) :
    Concur b c Q (env.guardMember key >>= f) (env'.guardMember key >>= f') s t := by
  unfold guardMember
  rw [hE.source]
  split
  · exact .throw hk _
  · exact hf

lemma guardValue_bind (hE : SameBut lib stateful env env') (hk : BothKeep b c s t)
    (hvw : s.heap.DeepEqual t.heap v w) (hf : Concur b c Q (f ()) (f' ()) s t) :
    Concur b c Q (env.guardValue v >>= f) (env'.guardValue w >>= f') s t := by
  have hrun := env.runOn_guardValue v s
  have hrun' := env'.runOn_guardValue w t
  rw [← hvw.forbidden?_eq, hE.source] at hrun'
  cases hforbidden : s.heap.forbidden? v with
  | none =>
    rw [hforbidden] at hrun hrun'
    exact .bind_of_runs hrun hrun' hf
  | some what =>
    rw [hforbidden] at hrun hrun'
    exact ⟨_, s, _, t, Compute.runOn_bind_of_error hrun, Compute.runOn_bind_of_error hrun', hk,
      .error _⟩

lemma locateMember (hE : SameBut lib stateful env env') (hk : BothKeep b c s t) (access : Access)
    (hvw : Twins b c s t v w) (key : String) :
    Concur b c (Spots b c) (env.locateMember access v key) (env'.locateMember access w key)
      s t := by
  rw [Env.locateMember_eq, Env.locateMember_eq]
  refine hE.guardMember_bind hk key ?_
  have hread : Concur b c (Spots b c)
      (Store.reading (fun h => if v.isNullish then .undefined else h.getMember v key) >>=
        fun value => env.guardValue value >>= fun _ => pure ⟨v, key, value⟩)
      (Store.reading (fun h => if w.isNullish then .undefined else h.getMember w key) >>=
        fun value => env'.guardValue value >>= fun _ => pure ⟨w, key, value⟩) s t := by
    refine .bind_of_runs (Store.runOn_reading _ s) (Store.runOn_reading _ t) ?_
    have hvalue : Twins b c s t (if v.isNullish then .undefined else s.heap.getMember v key)
        (if w.isNullish then .undefined else t.heap.getMember w key) := by
      rw [hvw.equal.isNullish_eq]
      split
      · exact .of_isAtom trivial
      · exact hvw.getMember key
    exact hE.guardValue_bind hk hvalue.equal (.pure hk ⟨hvw, rfl, hvalue⟩)
  cases access with
  | read => exact hread
  | create => exact hE.guardValue_bind hk hvw.equal hread

/-- An empty object that is put in the place of a missing value. -/
lemma intermediate (hk : BothKeep b c s t) (hloc : Spots b c s t loc loc') :
    Concur b c (Twins b c) loc.intermediate loc'.intermediate s t := by
  unfold Location.intermediate
  rw [hloc.value.equal.isNullish_eq, hloc.base.equal.isNullish_eq, hloc.key]
  split
  · refine .bind_of_runs (Store.runOn_making _ s) (Store.runOn_making _ t) ?_
    have hgrown : BothKeep s.heap t.heap { s with heap := (s.heap.newObject .empty none).2 }
        { t with heap := (t.heap.newObject .empty none).2 } :=
      ⟨s.heap.keeps_newObject _ _, t.heap.keeps_newObject _ _⟩
    have hfresh := Twins.newObject s t
    refine .write_bind (hk.trans hgrown) (hloc.base.later hgrown).equal hfresh.equal
      fun h k hh hk' => ?_
    refine .pure ⟨?_, ?_⟩ ?_
    · exact (hk.trans hgrown).left.of_write hloc.base.left.not_owns hh
    · exact (hk.trans hgrown).right.of_write hloc.base.right.not_owns hk'
    · exact (hfresh.of_unchanged (hfresh.left.unchanged_of_write hloc.base.left.has hh)
        (hfresh.right.unchanged_of_write hloc.base.right.has hk')).since hk
  · exact .pure hk hloc.value

/-- What is assigned is twins again, although the containers that it is put into have changed. -/
lemma store (hE : SameBut lib stateful env env') (hk : BothKeep b c s₁ t₁)
    (hloc : Spots b c s₁ t₁ loc loc') (hlater : BothKeep s₁.heap t₁.heap s t)
    (hvw : Twins s₁.heap t₁.heap s t v w) :
    Concur b c (Twins b c) (env.store loc v) (env'.store loc' w) s t := by
  unfold Env.store
  refine hE.guardValue_bind (hk.trans hlater) hvw.equal ?_
  rw [hloc.key]
  refine .write_bind (hk.trans hlater) (hloc.base.later hlater).equal hvw.equal
    fun h k hh hk' => ?_
  refine .pure ⟨?_, ?_⟩ ?_
  · exact (hk.trans hlater).left.of_write hloc.base.left.not_owns hh
  · exact (hk.trans hlater).right.of_write hloc.base.right.not_owns hk'
  · exact (hvw.of_unchanged (hvw.left.unchanged_of_write hloc.base.left.has hh)
      (hvw.right.unchanged_of_write hloc.base.right.has hk')).since hk

lemma applyFilter (hE : SameBut lib stateful env env') (hk : BothKeep b c s t) {name : String}
    (hname : stateful name = false) {args args' : List Value}
    (hargs : List.Forall₂ (Twins b c s t) args args') :
    Concur b c (Twins b c) (env.applyFilter lib name args) (env'.applyFilter lib name args')
      s t := by
  unfold Env.applyFilter
  rw [hE.filters]
  cases hlookup : env.filters.lookup name with
  | none => exact .throw hk _
  | some behaviour => exact (hE.repeatable name behaviour hname hlookup).concur hk hargs

end Env.SameBut

end DataBinding
