import DataBinding.Proofs.Soundness

/-!
# Watchers that only read

A watch function that only reads the heap computes the same value from the same heap, never fails,
and leaves nothing behind but a journal (`Routine.Reads`).  A watcher with such a watch function
observes a value that depends on the heap and on what the watcher remembers (`Engine.Looks`): a
watch of known inputs remembers the last value, and a watch of a collection what it saw last.  To
look twice is to look once.

A watcher is clean if what it observes now agrees with what it recorded last (`Engine.Clean`).  The
check of a clean watcher is known to the last detail (`runOn_check_of_clean`).
-/

namespace DataBinding

open Compute (runOn)

variable {κ σ α : Type}

/-! ## What watchers remember -/

lemma fst_eq_snd_of_mem_zip_self {α : Type} {l : List α} {p : α × α} (h : p ∈ l.zip l) :
    p.1 = p.2 := by
  rw [List.zip, List.zipWith_self] at h
  obtain ⟨a, -, rfl⟩ := List.mem_map.1 h
  rfl

/-- Every value of a list is the same as the one that stands at its place. -/
lemma same_of_mem_zip_self {l : List Value} {p : Value × Value} (h : p ∈ l.zip l) :
    p.1.same p.2 = true := by
  rw [fst_eq_snd_of_mem_zip_self h]
  exact p.2.same_self

lemma Memo.covers_self (inputs : List Value) (result : Value) :
    (Memo.mk inputs result).covers inputs = true := by
  rw [covers, beq_self_eq_true, Bool.true_and, List.all_eq_true]
  exact fun p hp => same_of_mem_zip_self hp

lemma View.newItems_self (items : List Value) : newItems items items = 0 := by
  rw [newItems, Nat.sub_self, Nat.add_zero, List.countP_eq_zero]
  intro p hp
  have hsame : p.1.same p.2 = true := same_of_mem_zip_self hp
  simpa using hsame

lemma View.changesSince_self (view : View) : view.changesSince view = 0 := by
  cases view with
  | list items => simp [changesSince, newItems_self]
  | single v => simp [changesSince, v.same_self]

/-- To take the same value in twice is to take it in once. -/
lemma Collection.notice_notice (c : Collection) (h : Heap) (v : Value) :
    (c.notice h v).notice h v = c.notice h v := by
  simp [notice, View.changesSince_self]

/-- Trees with the same frame have the same watchers up to records and memories. -/
lemma Tree.scope_kind_of_frame {t u : Tree κ σ} {w : WatcherId} {watcher watcher' : Watcher κ}
    (h : u.frame = t.frame) (hw : t.watcher? w = some watcher)
    (hw' : u.watcher? w = some watcher') :
    watcher'.scope = watcher.scope ∧ watcher'.kind.forget = watcher.kind.forget := by
  obtain ⟨watcher'', hw'', hstatic⟩ := exists_watcher?_of_frame h hw'
  cases hw.symm.trans hw''
  have hscope := congrArg Watcher.scope hstatic
  have hkind := congrArg Watcher.kind hstatic
  exact ⟨hscope.symm, hkind.symm⟩

/-! ## Reading -/

/-- The call of a listener that a step is, if it is one. -/
def Step.telling? : Step κ → Option (κ × ScopeId × Change)
  | .called procedure (.changed s change) => some (procedure, s, change)
  | _ => none

/-- The calls of listeners that a tree has seen, the last one first. -/
def Tree.tellings (t : Tree κ σ) : List (κ × ScopeId × Change) :=
  t.journal.filterMap Step.telling?

/-- As long as the frame is that of `t`, the routine computes a value from the heap alone; it calls
no listener and leaves the tree as it is. -/
def Routine.Reads (t : Tree κ σ) (m : Routine κ σ α) : Prop :=
  ∃ f : Heap → α, ∀ u : Tree κ σ, u.frame = t.frame → ∃ journal,
    runOn m u = some (.ok (f u.store.heap), { u with journal }) ∧
      journal.filterMap Step.telling? = u.tellings

namespace Engine

variable {E : Engine κ σ} {t u : Tree κ σ} {s : ScopeId} {w : WatcherId}

/-- What is observed in a scope is read off the heap. -/
def ObservesByReading (E : Engine κ σ) (t : Tree κ σ) (s : ScopeId) : WatchKind κ → Prop
  | .procedure watch _ | .member watch _ _ | .collection watch _ _ =>
    Routine.Reads t (E.call watch (.watch s))
  | .expression e _ | .constant e _ | .oneTime e _ _ => Routine.Reads t (E.evaluate s e none)
  | .inputs e _ _ => Routine.Reads t (E.evaluateInputs s e) ∧ Routine.Reads t (E.evaluate s e none)

/-- The watch function of the watcher only reads the heap. -/
def Reads (E : Engine κ σ) (t : Tree κ σ) (w : WatcherId) : Prop :=
  ∃ watcher, t.watcher? w = some watcher ∧ E.ObservesByReading t watcher.scope watcher.kind

lemma observesByReading_forget (E : Engine κ σ) (t : Tree κ σ) (s : ScopeId)
    (kind : WatchKind κ) :
    E.ObservesByReading t s kind.forget = E.ObservesByReading t s kind := by
  cases kind <;> rfl

lemma ObservesByReading.of_frame {kind : WatchKind κ} (h : E.ObservesByReading t s kind)
    (hframe : u.frame = t.frame) : E.ObservesByReading u s kind := by
  have hreads : ∀ {α : Type} {m : Routine κ σ α}, m.Reads t → m.Reads u :=
    fun ⟨f, hf⟩ => ⟨f, fun v hv => hf v (hv.trans hframe)⟩
  cases kind with
  | inputs => exact ⟨hreads h.1, hreads h.2⟩
  | _ => exact hreads h

lemma Reads.of_frame (h : E.Reads t w) (hframe : u.frame = t.frame) : E.Reads u w := by
  obtain ⟨watcher, hw, hreads⟩ := h
  obtain ⟨watcher', hw', -⟩ := Tree.exists_watcher?_of_frame hframe.symm hw
  obtain ⟨hscope, hkind⟩ := Tree.scope_kind_of_frame hframe hw hw'
  refine ⟨watcher', hw', ?_⟩
  rw [hscope, ← observesByReading_forget, hkind, observesByReading_forget]
  exact hreads.of_frame hframe

/-- What the watcher observes agrees with what it recorded last. -/
def Clean (E : Engine κ σ) (t : Tree κ σ) (w : WatcherId) : Prop :=
  ∃ watcher v u, t.watcher? w = some watcher ∧
    runOn (E.observe watcher.scope w watcher.kind) t = some (.ok v, u) ∧
      watcher.last.any (t.store.heap.agrees · v) = true

/-- What the watcher observes, and remembers then, is what `look` makes of the heap and of what it
remembers now. -/
structure Looks (E : Engine κ σ) (t : Tree κ σ) (w : WatcherId)
    (look : Heap → WatchKind κ → Value × WatchKind κ) : Prop where
  observe : ∀ {u : Tree κ σ} {watcher}, u.frame = t.frame → u.watcher? w = some watcher →
    ∃ journal, runOn (E.observe watcher.scope w watcher.kind) u =
        some (.ok (look u.store.heap watcher.kind).1,
          { u.setKind w (look u.store.heap watcher.kind).2 with journal }) ∧
      journal.filterMap Step.telling? = u.tellings
  forget : ∀ h kind, (look h kind).2.forget = kind.forget
  again : ∀ h kind, look h (look h kind).2 = look h kind

/-- A watcher without a memory observes by reading alone. -/
lemma looks_of_reads_alone {m : Routine κ σ Value} {watcher : Watcher κ}
    (hw : t.watcher? w = some watcher)
    (hm : ∀ kind : WatchKind κ, kind.forget = watcher.kind.forget →
      E.observe watcher.scope w kind = m)
    (h : m.Reads t) : ∃ look, E.Looks t w look := by
  obtain ⟨f, hf⟩ := h
  refine ⟨fun heap kind => (f heap, kind), fun {u watcher'} hframe hw' => ?_, fun _ _ => rfl,
    fun _ _ => rfl⟩
  obtain ⟨hscope, hkind⟩ := Tree.scope_kind_of_frame hframe hw hw'
  obtain ⟨journal, hrun, hjournal⟩ := hf u hframe
  refine ⟨journal, ?_, hjournal⟩
  rw [hscope, hm _ hkind, Tree.setKind_self hw']
  exact hrun

/-- What a watcher of known inputs observes, and remembers then, if `inputs` are the inputs that the
heap gives and `value` is the value. -/
def lookAtInputs (inputs : Heap → List Value) (value : Heap → Value) (heap : Heap) :
    WatchKind κ → Value × WatchKind κ
  | .inputs e listener memo =>
    match memo.filter (·.covers (inputs heap)) with
    | some old => (old.result, .inputs e listener memo)
    | none => (value heap, .inputs e listener (some ⟨inputs heap, value heap⟩))
  | kind => (.undefined, kind)

/-- What a watcher of a collection observes, and remembers then, if `value` is the collection that
the heap gives. -/
def lookAtCollection (value : Heap → Value) (heap : Heap) : WatchKind κ → Value × WatchKind κ
  | .collection watch listener state =>
    (.ofNat (state.notice heap (value heap)).changes,
      .collection watch listener (state.notice heap (value heap)))
  | kind => (.undefined, kind)

/-- A watcher of known inputs evaluates anew unless they are as they were. -/
lemma looks_of_reads_inputs {watcher : Watcher κ} {e : Expression} {listener : κ}
    {memo : Option Memo} (hw : t.watcher? w = some watcher)
    (hkind : watcher.kind = .inputs e listener memo)
    (hinputs : Routine.Reads t (E.evaluateInputs watcher.scope e))
    (hvalue : Routine.Reads t (E.evaluate watcher.scope e none)) : ∃ look, E.Looks t w look := by
  obtain ⟨fi, hfi⟩ := hinputs
  obtain ⟨f, hf⟩ := hvalue
  refine ⟨lookAtInputs fi f, fun {u watcher'} hframe hw' => ?_, fun heap kind => ?_,
    fun heap kind => ?_⟩
  · obtain ⟨hscope, hforget⟩ := Tree.scope_kind_of_frame hframe hw hw'
    obtain ⟨memo', hkind'⟩ : ∃ memo', watcher'.kind = .inputs e listener memo' := by
      rw [hkind] at hforget
      cases hk : watcher'.kind <;> rw [hk] at hforget <;> simp_all [WatchKind.forget]
    obtain ⟨j₁, hrun₁, hj₁⟩ := hfi u hframe
    rw [hscope, hkind']
    simp only [observe, observeInputs]
    rw [Compute.runOn_bind_of_ok hrun₁]
    cases hmemo : memo'.filter (·.covers (fi u.store.heap)) with
    | some m =>
      refine ⟨j₁, ?_, hj₁⟩
      simp only [lookAtInputs, hmemo]
      rw [← hkind', Tree.setKind_self hw']
      rfl
    | none =>
      obtain ⟨j₂, hrun₂, hj₂⟩ := hf { u with journal := j₁ } hframe
      refine ⟨j₂, ?_, hj₂.trans hj₁⟩
      simp only [lookAtInputs, hmemo]
      rw [Compute.runOn_bind_of_ok hrun₂]
      rfl
  · cases kind with
    | inputs e listener memo =>
      simp only [lookAtInputs]
      cases memo.filter (·.covers (fi heap)) <;> rfl
    | _ => rfl
  · cases kind with
    | inputs e listener memo =>
      simp only [lookAtInputs]
      cases hmemo : memo.filter (·.covers (fi heap)) with
      | some m => simp [hmemo]
      | none => simp [Option.filter, Memo.covers_self]
    | _ => rfl

/-- A watcher of a collection counts the changes to what it saw. -/
lemma looks_of_reads_collection {watcher : Watcher κ} {watch listener : κ} {state : Collection}
    (hw : t.watcher? w = some watcher) (hkind : watcher.kind = .collection watch listener state)
    (h : Routine.Reads t (E.call watch (.watch watcher.scope))) : ∃ look, E.Looks t w look := by
  obtain ⟨f, hf⟩ := h
  refine ⟨lookAtCollection f, fun {u watcher'} hframe hw' => ?_, fun heap kind => ?_,
    fun heap kind => ?_⟩
  · obtain ⟨hscope, hforget⟩ := Tree.scope_kind_of_frame hframe hw hw'
    obtain ⟨state', hkind'⟩ : ∃ state', watcher'.kind = .collection watch listener state' := by
      rw [hkind] at hforget
      cases hk : watcher'.kind <;> rw [hk] at hforget <;> simp_all [WatchKind.forget]
    obtain ⟨journal, hrun, hjournal⟩ := hf u hframe
    refine ⟨journal, ?_, hjournal⟩
    rw [hscope, hkind']
    simp only [observe]
    rw [Compute.runOn_bind_of_ok hrun]
    obtain ⟨_, _, _, _, _⟩ := watcher'
    cases hkind'
    have hw'' : ({ u with journal } : Tree κ σ).watcher? w = some _ := hw'
    simp only [Compute.runOn_alter, Tree.noticeCollection, hw'', lookAtCollection]
    rfl
  · cases kind <;> rfl
  · cases kind with
    | collection watch listener state => simp only [lookAtCollection, Collection.notice_notice]
    | _ => rfl

/-- A watcher whose watch function only reads observes what there is to see. -/
theorem exists_looks (h : E.Reads t w) : ∃ look, E.Looks t w look := by
  obtain ⟨watcher, hw, hreads⟩ := h
  cases hkind : watcher.kind with
  | inputs e listener memo =>
    rw [hkind] at hreads
    exact looks_of_reads_inputs hw hkind hreads.1 hreads.2
  | collection watch listener state =>
    rw [hkind] at hreads
    exact looks_of_reads_collection hw hkind hreads
  | procedure watch listener =>
    rw [hkind] at hreads
    refine looks_of_reads_alone hw (fun kind hforget => ?_) hreads
    rw [hkind] at hforget
    cases kind <;> simp_all [WatchKind.forget, observe]
  | member watch g index =>
    rw [hkind] at hreads
    refine looks_of_reads_alone hw (fun kind hforget => ?_) hreads
    rw [hkind] at hforget
    cases kind <;> simp_all [WatchKind.forget, observe]
  | expression e listener =>
    rw [hkind] at hreads
    refine looks_of_reads_alone hw (fun kind hforget => ?_) hreads
    rw [hkind] at hforget
    cases kind <;> simp_all [WatchKind.forget, observe]
  | constant e listener =>
    rw [hkind] at hreads
    refine looks_of_reads_alone hw (fun kind hforget => ?_) hreads
    rw [hkind] at hforget
    cases kind <;> simp_all [WatchKind.forget, observe]
  | oneTime e listener reported =>
    rw [hkind] at hreads
    refine looks_of_reads_alone hw (fun kind hforget => ?_) hreads
    rw [hkind] at hforget
    cases kind <;> simp_all [WatchKind.forget, observe]

/-! ## Checks of watchers that only read -/

variable {look : Heap → WatchKind κ → Value × WatchKind κ} {watcher : Watcher κ}

lemma Looks.of_frame (h : E.Looks t w look) (hframe : u.frame = t.frame) : E.Looks u w look :=
  ⟨fun hu hw => h.observe (hu.trans hframe) hw, h.forget, h.again⟩

/-- A watcher is clean if its record agrees with what there is to see. -/
lemma Looks.clean_iff (h : E.Looks t w look) (hw : t.watcher? w = some watcher) :
    E.Clean t w ↔
      watcher.last.any (t.store.heap.agrees · (look t.store.heap watcher.kind).1) = true := by
  obtain ⟨journal, hrun, -⟩ := h.observe rfl hw
  refine ⟨?_, fun hagrees => ⟨watcher, _, _, hw, hrun, hagrees⟩⟩
  rintro ⟨watcher', v, u, hw', hrun', hagrees⟩
  cases hw.symm.trans hw'
  cases hrun.symm.trans hrun'
  exact hagrees

lemma record_of_agrees {new : Value} (hw : t.watcher? w = some watcher)
    (h : watcher.last.any (t.store.heap.agrees · new) = true) :
    t.record w new = some (none, t) := by
  simp only [Tree.record, hw, h, if_true]

lemma record_of_not_agrees {new : Value} {change : Option Change}
    (hw : t.watcher? w = some watcher)
    (h : watcher.last.any (t.store.heap.agrees · new) = false)
    (hrun : t.record w new = some (change, u)) : ∃ c, change = some c := by
  simp only [Tree.record, hw, h, Bool.false_eq_true, if_false] at hrun
  obtain ⟨frozen, -, hrun⟩ := Option.map_eq_some_iff.1 hrun
  cases hrun
  exact ⟨_, rfl⟩

/-- A check looks, and then compares what it saw with the record. -/
lemma Looks.runOn_check (h : E.Looks t w look) (hw : t.watcher? w = some watcher) :
    ∃ journal, runOn (E.check w) t =
        (({ t.setKind w (look t.store.heap watcher.kind).2 with journal } : Tree κ σ).record w
          (look t.store.heap watcher.kind).1).map (fun (change, u) => (.ok change, u)) ∧
      journal.filterMap Step.telling? = t.tellings := by
  have hchecked : (t.note (.checked w)).watcher? w = some watcher := hw
  obtain ⟨journal, hrun, hjournal⟩ := h.observe (u := t.note (.checked w)) rfl hchecked
  refine ⟨journal, ?_, hjournal⟩
  rw [check, Compute.runOn_change_bind, Compute.runOn_read_bind, hchecked]
  exact Compute.runOn_bind_of_ok hrun

lemma watcher?_looked (hw : t.watcher? w = some watcher) (kind : WatchKind κ)
    (journal : List (Step κ)) :
    ({ t.setKind w kind with journal } : Tree κ σ).watcher? w = some { watcher with kind } := by
  have hset := Tree.watcher?_modifyWatcher_self (t := t) (w := w) ({ · with kind })
  rw [hw] at hset
  exact hset

/-- What a check does if the watcher is clean: the watcher remembers what it saw, and nothing else
happens. -/
lemma Looks.runOn_check_of_clean (h : E.Looks t w look) (hw : t.watcher? w = some watcher)
    (hclean : E.Clean t w) :
    ∃ journal, runOn (E.check w) t =
        some (.ok none, { t.setKind w (look t.store.heap watcher.kind).2 with journal }) ∧
      journal.filterMap Step.telling? = t.tellings := by
  obtain ⟨journal, hrun, hjournal⟩ := h.runOn_check hw
  have hafter := watcher?_looked hw (look t.store.heap watcher.kind).2 journal
  have hrecord := record_of_agrees hafter ((h.clean_iff hw).1 hclean)
  refine ⟨journal, ?_, hjournal⟩
  rw [hrun, hrecord]
  rfl

/-- A check finds no change just if the watcher is clean, and never fails. -/
lemma Looks.check_cases (h : E.Looks t w look) (hw : t.watcher? w = some watcher)
    {r : Except Error (Option Change)} (hrun : runOn (E.check w) t = some (r, u)) :
    (E.Clean t w ∧ r = .ok none) ∨ (¬ E.Clean t w ∧ ∃ change, r = .ok (some change)) := by
  by_cases hclean : E.Clean t w
  · obtain ⟨journal, hrun', -⟩ := h.runOn_check_of_clean hw hclean
    cases hrun.symm.trans hrun'
    exact .inl ⟨hclean, rfl⟩
  · refine .inr ⟨hclean, ?_⟩
    obtain ⟨journal, hrun', -⟩ := h.runOn_check hw
    rw [hrun'] at hrun
    obtain ⟨⟨change, v⟩, hrecord, hrun⟩ := Option.map_eq_some_iff.1 hrun
    cases hrun
    have hdisagrees : watcher.last.any
        (t.store.heap.agrees · (look t.store.heap watcher.kind).1) = false := by
      rw [h.clean_iff hw] at hclean
      simpa using hclean
    have hafter := watcher?_looked hw (look t.store.heap watcher.kind).2 journal
    obtain ⟨c, rfl⟩ := record_of_not_agrees hafter hdisagrees hrecord
    exact ⟨c, rfl⟩

end Engine

/-- A watch function that is a reading of the heap reads. -/
lemma Host.reads_of_reading (H : Host κ σ) (limit : ℕ) (t : Tree κ σ) {watch : κ} {s : ScopeId}
    {f : Heap → Value} (h : H.procedure watch (.watch s) = .compute (Store.reading f)) :
    Routine.Reads t ((H.engine (limit + 1)).call watch (.watch s)) := by
  refine ⟨f, fun u _ => ⟨.called watch (.watch s) :: u.journal, ?_, rfl⟩⟩
  rw [Engine.call, Compute.runOn_change_bind]
  show runOn (H.invoke (limit + 1) watch (.watch s)) _ = _
  rw [Host.invoke, h]
  rfl

end DataBinding
