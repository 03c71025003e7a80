import DataBinding.Evaluation
import DataBinding.Proofs.Limits

/-!
# The elementary steps of an evaluation

What the guards, the locating of a member and the accesses to the heap do, one run each.  All of
them have an end, but for the conversions (`Compute.Total`).  A guard that lets something pass
changes nothing.  Nor does the locating of a name or of a member, which yields a location whose key
is not a forbidden one and whose value the guard has let pass (`Expr.located_of_locate`).
-/

namespace DataBinding

open Compute (After Ends Leads Total runOn)

variable {σ α β : Type}

/-! ## The heap -/

namespace Store

variable {s : Store σ}

@[simp] lemma runOn_reading (f : Heap → α) (s : Store σ) :
    runOn (reading f) s = some (.ok (f s.heap), s) := rfl

@[simp] lemma runOn_readingEndless (f : Heap → Option α) (s : Store σ) :
    runOn (readingEndless f) s = (f s.heap).map fun a => (.ok a, s) := rfl

@[simp] lemma runOn_making (f : Heap → α × Heap) (s : Store σ) :
    runOn (making f) s = some (.ok (f s.heap).1, { s with heap := (f s.heap).2 }) := rfl

@[simp] lemma runOn_changing (f : Heap → Heap) (s : Store σ) :
    runOn (changing f) s = some (.ok (), { s with heap := f s.heap }) := rfl

lemma runOn_changingIf (f : Heap → Option (Except Error Heap)) (s : Store σ) :
    runOn (changingIf f) s = (f s.heap).map fun
      | .ok h => (.ok (), { s with heap := h })
      | .error e => (.error e, s) := by
  change runOn (readingEndless f >>= fun x => Compute.ofExcept x >>= fun h => changing fun _ => h) s
    = _
  rw [Compute.runOn_bind, runOn_readingEndless]
  rcases f s.heap with _ | _ | _ <;> rfl

lemma total_reading (f : Heap → α) : Total (reading f : Compute (Store σ) α) :=
  Compute.total_of_runs (runOn_reading f)

lemma total_making (f : Heap → α × Heap) : Total (making f : Compute (Store σ) α) :=
  Compute.total_of_runs (runOn_making f)

lemma total_changing (f : Heap → Heap) : Total (changing f : Compute (Store σ) Unit) :=
  Compute.total_of_runs (runOn_changing f)

lemma after_making_iff {f : Heap → α × Heap} {later : α → Store σ → Prop} :
    After (fun _ => making f) s later ↔ later (f s.heap).1 { s with heap := (f s.heap).2 } :=
  Compute.after_iff_of_run fun _ => runOn_making f s

lemma after_reading_iff {f : Heap → α} {later : α → Store σ → Prop} :
    After (fun _ => reading f) s later ↔ later (f s.heap) s :=
  Compute.after_iff_of_run fun _ => runOn_reading f s

lemma after_changing_iff {f : Heap → Heap} {later : Unit → Store σ → Prop} :
    After (fun _ => changing f) s later ↔ later () { s with heap := f s.heap } :=
  Compute.after_iff_of_run fun _ => runOn_changing f s

lemma endless_readingEndless_iff {f : Heap → Option α} :
    Compute.Endless (fun _ => readingEndless f) s ↔ f s.heap = none := by
  rw [Compute.endless_const_iff, runOn_readingEndless, Option.map_eq_none_iff]

lemma unchanged_readingEndless (f : Heap → Option α) :
    Leads Eq (readingEndless f : Compute (Store σ) α) := by
  intro s r t hrun
  rw [runOn_readingEndless] at hrun
  obtain ⟨a, -, hend⟩ := Option.map_eq_some_iff.1 hrun
  cases hend
  rfl

end Store

/-! ## Guards -/

namespace Env

variable {env : Env} {s t : Store σ}

lemma runOn_guardMember (env : Env) (key : String) (s : Store σ) :
    runOn (env.guardMember key) s =
      some (if key ∈ forbiddenMembers then .error (.refused (.member key) env.source) else .ok (),
        s) := by
  unfold guardMember
  split <;> rfl

lemma runOn_guardValue (env : Env) (v : Value) (s : Store σ) :
    runOn (env.guardValue v) s =
      some ((s.heap.forbidden? v).elim (.ok ()) fun what => .error (.refused what env.source),
        s) := by
  unfold guardValue
  rw [Compute.runOn_bind_of_ok (Store.runOn_reading (·.forbidden? v) s)]
  cases s.heap.forbidden? v <;> rfl

lemma runOn_guardCallee (env : Env) (v : Value) (s : Store σ) :
    runOn (env.guardCallee v) s =
      some (v.uncallable?.elim (.ok ()) fun what => .error (.refused what env.source), s) := by
  unfold guardCallee
  cases v.uncallable? <;> rfl

lemma total_guardMember (env : Env) (key : String) :
    Total (env.guardMember key : Compute (Store σ) Unit) :=
  Compute.total_of_runs (env.runOn_guardMember key)

lemma total_guardValue (env : Env) (v : Value) :
    Total (env.guardValue v : Compute (Store σ) Unit) :=
  Compute.total_of_runs (env.runOn_guardValue v)

lemma total_guardCallee (env : Env) (v : Value) :
    Total (env.guardCallee v : Compute (Store σ) Unit) :=
  Compute.total_of_runs (env.runOn_guardCallee v)

lemma after_guardMember_iff {key : String} {later : Unit → Store σ → Prop} :
    After (fun _ => env.guardMember key) s later ↔ key ∉ forbiddenMembers ∧ later () s := by
  have hrun := env.runOn_guardMember key s
  split at hrun
  · next hkey => exact iff_of_false (Compute.not_after_of_error hrun) fun h => h.1 hkey
  · next hkey => exact (Compute.after_iff_of_run fun _ => hrun).trans (and_iff_right hkey).symm

lemma permitted_of_runOn_guardMember {key : String} {a : Unit}
    (h : runOn (env.guardMember key) s = some (.ok a, t)) : key ∉ forbiddenMembers := by
  have hafter : After (fun _ => env.guardMember key) s fun _ _ => True := ⟨a, t, ⟨0, h⟩, trivial⟩
  exact (after_guardMember_iff.1 hafter).1

lemma after_guardValue_iff {v : Value} {later : Unit → Store σ → Prop} :
    After (fun _ => env.guardValue v) s later ↔ s.heap.forbidden? v = none ∧ later () s := by
  have hrun := env.runOn_guardValue v s
  cases hv : s.heap.forbidden? v with
  | some what =>
    rw [hv] at hrun
    exact iff_of_false (Compute.not_after_of_error hrun) fun h => nomatch h.1
  | none =>
    rw [hv] at hrun
    exact (Compute.after_iff_of_run fun _ => hrun).trans (and_iff_right rfl).symm

lemma accepted_of_runOn_guardValue {v : Value} {a : Unit}
    (h : runOn (env.guardValue v) s = some (.ok a, t)) : s.heap.forbidden? v = none ∧ t = s := by
  rw [runOn_guardValue] at h
  cases hv : s.heap.forbidden? v with
  | some what =>
    rw [hv] at h
    cases h
  | none =>
    rw [hv] at h
    cases h
    exact ⟨rfl, rfl⟩

lemma after_guardCallee_iff {v : Value} {later : Unit → Store σ → Prop} :
    After (fun _ => env.guardCallee v) s later ↔ v.uncallable? = none ∧ later () s := by
  have hrun := env.runOn_guardCallee v s
  cases hv : v.uncallable? with
  | some what =>
    rw [hv] at hrun
    exact iff_of_false (Compute.not_after_of_error hrun) fun h => nomatch h.1
  | none =>
    rw [hv] at hrun
    exact (Compute.after_iff_of_run fun _ => hrun).trans (and_iff_right rfl).symm

lemma unchanged_guardMember (env : Env) (key : String) :
    Leads Eq (env.guardMember key : Compute (Store σ) Unit) := by
  intro s r t hrun
  rw [runOn_guardMember] at hrun
  cases hrun
  rfl

lemma unchanged_guardValue (env : Env) (v : Value) :
    Leads Eq (env.guardValue v : Compute (Store σ) Unit) := by
  intro s r t hrun
  rw [runOn_guardValue] at hrun
  cases hrun
  rfl

/-! ## Locating -/

lemma total_locateName (env : Env) (name : String) :
    Total (env.locateName name : Compute (Store σ) Location) :=
  (env.total_guardMember name).bind fun _ => (Store.total_reading _).bind fun _ =>
    (Store.total_reading _).bind fun _ => (env.total_guardValue _).bind fun _ =>
      Compute.total_pure _

lemma locateMember_eq (env : Env) (access : Access) (base : Value) (key : String) :
    (env.locateMember access base key : Compute (Store σ) Location) =
      env.guardMember key >>= fun _ =>
        (if access = .create then env.guardValue base else pure ()) >>= fun _ =>
          Store.reading (fun h => if base.isNullish then .undefined else h.getMember base key) >>=
            fun value => env.guardValue value >>= fun _ => pure ⟨base, key, value⟩ := by
  cases access <;> rfl

lemma total_locateMember (env : Env) (access : Access) (base : Value) (key : String) :
    Total (env.locateMember access base key : Compute (Store σ) Location) := by
  rw [locateMember_eq]
  refine (env.total_guardMember key).bind fun _ => Total.bind ?_ fun _ =>
    (Store.total_reading _).bind fun _ => (env.total_guardValue _).bind fun _ =>
      Compute.total_pure _
  split
  · exact env.total_guardValue base
  · exact Compute.total_pure ()

lemma unchanged_locateName (env : Env) (name : String) :
    Leads Eq (env.locateName name : Compute (Store σ) Location) :=
  (env.unchanged_guardMember name).bind fun _ => (Leads.read _).bind fun _ =>
    (Leads.read _).bind fun _ => (env.unchanged_guardValue _).bind fun _ => .pure _

lemma unchanged_locateMember (env : Env) (access : Access) (base : Value) (key : String) :
    Leads Eq (env.locateMember access base key : Compute (Store σ) Location) := by
  rw [locateMember_eq]
  refine (env.unchanged_guardMember key).bind fun _ => Leads.bind ?_ fun _ =>
    (Leads.read _).bind fun _ => (env.unchanged_guardValue _).bind fun _ => .pure _
  split
  · exact env.unchanged_guardValue base
  · exact .pure ()

/-- What is known of a location that was found: the guards let its name and its value pass. -/
structure Located (loc : Location) (s : Store σ) : Prop where
  permitted : loc.key ∉ forbiddenMembers
  accepted : s.heap.forbidden? loc.value = none

/-- A name that is located changes nothing. -/
lemma located_name {name : String} {loc : Location}
    (h : Ends (fun _ => env.locateName name) s (.ok loc) t) :
    Located loc s ∧ t = s := by
  obtain ⟨hkey, h⟩ := after_guardMember_iff.1 h.of_bind
  obtain ⟨haccepted, h⟩ := after_guardValue_iff.1
    (Store.after_reading_iff.1 (Store.after_reading_iff.1 h.of_bind).of_bind).of_bind
  cases Compute.ends_const_iff.1 h
  exact ⟨⟨hkey, haccepted⟩, rfl⟩

/-- A member that is located changes nothing. -/
lemma located_member {access : Access} {base : Value} {key : String} {loc : Location}
    (h : Ends (fun _ => env.locateMember access base key) s (.ok loc) t) :
    Located loc s ∧ t = s := by
  rw [locateMember_eq] at h
  obtain ⟨hkey, h⟩ := after_guardMember_iff.1 h.of_bind
  obtain ⟨_, u, hbase, hrest⟩ := h.of_bind
  obtain rfl : u = s := by
    rw [Compute.ends_const_iff] at hbase
    split at hbase
    · rw [runOn_guardValue] at hbase
      exact (congrArg Prod.snd (Option.some.inj hbase)).symm
    · cases hbase
      rfl
  obtain ⟨haccepted, h⟩ := after_guardValue_iff.1 (Store.after_reading_iff.1 hrest.of_bind).of_bind
  cases Compute.ends_const_iff.1 h
  exact ⟨⟨hkey, haccepted⟩, rfl⟩

/-! ## Calling -/

section Calling

variable (env : Env) (lib : Library σ)

/-- What is left of a call once its operands have been evaluated. -/
def enter (this callee : Value) (args : List Value) : Compute (Store σ) Value :=
  match callee with
  | .function f => do
    let result ← lib.invoke env.callLimit f this args
    env.guardValue result
    return result
  | v => throw (.evaluation (.notCallable v.kind env.source))

lemma call_eq {f : Value} (hf : f.isNullish = false) (this : Value)
    (args : Compute (Store σ) (List Value)) :
    env.call lib this f args = env.guardValue this >>= fun _ => env.guardCallee f >>= fun _ =>
      args >>= env.enter lib this f := by
  unfold call
  rw [hf]
  rfl

end Calling

end Env

/-- What a place denotes was located, and nothing has happened since. -/
lemma Expr.located_of_locate {lib : Library σ} {env : Env} {access : Access} {p : Place}
    {s t : Store σ} {loc : Location} (h : runOn (locate lib env access p) s = some (.ok loc, t)) :
    Env.Located loc t := by
  cases p with
  | name name =>
    obtain ⟨hloc, rfl⟩ := Env.located_name ⟨0, h⟩
    exact hloc
  | member base key =>
    obtain ⟨v, u, -, h⟩ := Compute.runOn_bind_ok_cases h
    obtain ⟨hloc, rfl⟩ := Env.located_member ⟨0, h⟩
    exact hloc
  | element base key =>
    obtain ⟨v, u, -, h⟩ := Compute.runOn_bind_ok_cases h
    obtain ⟨k, u, -, h⟩ := Compute.runOn_bind_ok_cases h
    obtain ⟨text, u, -, h⟩ := Compute.runOn_bind_ok_cases h
    obtain ⟨hloc, rfl⟩ := Env.located_member ⟨0, h⟩
    exact hloc

end DataBinding
