import DataBinding.Proofs.Keepsakes

/-!
# Watches of inputs over whole runs

A watch of inputs remembers the values that the inputs had when the expression was evaluated last,
and the value that it had then.  Both can fail in a check, the inputs and the expression, and
between two checks anybody may change the heap.

A probe is what comes of one check (`Probe`): what the inputs came to, whether the expression was
evaluated and what came of that, what the watch observed, and what it remembered before and after.
Each check is a probe (`Engine.probes_of_visit`) that follows the rules of the memory
(`Probe.Faithful`).  So the probes of a run are a chronicle (`Chronicle`), and what is remembered is
what the last evaluation that succeeded left (`Chronicle.eq_lastSuccess`).

Hence a check evaluates the expression just if there is no such evaluation or some input is not the
same as it was then, a check that fails changes nothing that is remembered, and a check that
succeeds answers the value of an evaluation with the same inputs
(`Host.inputs_watch_never_stale`).
-/

namespace DataBinding

open Compute (runOn runOn_bind_cases)

variable {κ σ α : Type} {w : WatcherId}

/-! ## Probes -/

/-- The values of the inputs are pairwise the same as those that are remembered. -/
def Memo.SameInputs (m : Memo) (inputs : List Value) : Prop :=
  List.Forall₂ (fun v w => v.same w = true) m.inputs inputs

lemma Memo.covers_iff {m : Memo} {inputs : List Value} :
    m.covers inputs = true ↔ m.SameInputs inputs := by
  rw [SameInputs, List.forall₂_iff_zip]
  simp only [covers, Bool.and_eq_true, beq_iff_eq, List.all_eq_true, Prod.forall]

/-- What comes of a check of a watch of inputs: what the inputs came to, what the evaluation of the
expression came to if there was one, and what the check observed; and what was remembered before it
and after it. -/
structure Probe where
  before : Option Memo
  inputs : Except Error (List Value)
  evaluated : Option (Except Error Value)
  answer : Except Error Value
  after : Option Memo

namespace Probe

/-- The inputs and the value of the expression, if it was evaluated and had one. -/
def success? (p : Probe) : Option Memo :=
  match p.inputs, p.evaluated with
  | .ok inputs, some (.ok result) => some ⟨inputs, result⟩
  | _, _ => none

/-- The rules of the memory. -/
structure Faithful (p : Probe) : Prop where
  evaluated_iff : ∀ inputs, p.inputs = .ok inputs →
    (p.evaluated.isSome = true ↔ ∀ m ∈ p.before, ¬ m.SameInputs inputs)
  after_eq : p.after = p.success?.or p.before
  failed : ∀ e, p.answer = .error e → p.success? = none
  answered : ∀ v, p.answer = .ok v → ∃ inputs m, p.inputs = .ok inputs ∧ p.after = some m ∧
    m.result = v ∧ m.SameInputs inputs

end Probe

/-- What the last evaluation of the expression that succeeded left to be remembered. -/
def lastSuccess (ps : List Probe) : Option Memo := (ps.filterMap Probe.success?).getLast?

lemma lastSuccess_cons (p : Probe) (ps : List Probe) :
    lastSuccess (p :: ps) = (lastSuccess ps).or p.success? := by
  unfold lastSuccess
  cases hp : p.success? with
  | none => rw [List.filterMap_cons_none hp, Option.or_none]
  | some m =>
    rw [List.filterMap_cons_some hp, List.getLast?_cons]
    cases (ps.filterMap Probe.success?).getLast? <;> rfl

/-- The probes follow the rules of the memory one after another, from what is remembered at first to
what is remembered in the end. -/
inductive Chronicle : Option Memo → List Probe → Option Memo → Prop
  | nil (m : Option Memo) : Chronicle m [] m
  | cons {p : Probe} {ps : List Probe} {m : Option Memo} (hp : p.Faithful)
    (h : Chronicle p.after ps m) : Chronicle p.before (p :: ps) m

namespace Chronicle

variable {m m' m'' : Option Memo} {p : Probe} {ps before after : List Probe}

lemma append (h : Chronicle m before m') (h' : Chronicle m' after m'') :
    Chronicle m (before ++ after) m'' := by
  induction h with
  | nil => exact h'
  | cons hp _ ih => exact .cons hp (ih h')

lemma exists_of_append (h : Chronicle m (before ++ after) m'') :
    ∃ m', Chronicle m before m' ∧ Chronicle m' after m'' := by
  induction before generalizing m with
  | nil => exact ⟨m, .nil m, h⟩
  | cons p before ih =>
    cases h with
    | cons hp h =>
      obtain ⟨m', hbefore, hafter⟩ := ih h
      exact ⟨m', .cons hp hbefore, hafter⟩

/-- What is remembered is what the last success left, or else what was remembered at first. -/
lemma eq_lastSuccess_or (h : Chronicle m ps m') : m' = (lastSuccess ps).or m := by
  induction h with
  | nil => rfl
  | @cons p ps m' hp _ ih => rw [ih, hp.after_eq, lastSuccess_cons, Option.or_assoc]

/-- If nothing was remembered at first, it is what the last success left. -/
lemma eq_lastSuccess (h : Chronicle none ps m) : m = lastSuccess ps :=
  h.eq_lastSuccess_or.trans Option.or_none

end Chronicle

/-! ## What a watch of inputs keeps -/

/-- A watch of inputs: its scope, the expression, the listener, and what it remembers. -/
structure InputWatch (κ : Type) where
  scope : ScopeId
  expression : Expression
  listener : κ
  memo : Option Memo

/-- Whether it is the inputs that are watched. -/
def WatchKind.isInputs : WatchKind κ → Bool
  | .inputs .. => true
  | _ => false

/-- What a watcher keeps if it watches inputs. -/
def Watcher.inputWatch? : Watcher κ → Option (InputWatch κ)
  | ⟨s, .inputs e listener memo, _, _, _⟩ => some ⟨s, e, listener, memo⟩
  | _ => none

/-- A watch of inputs keeps what it remembers. -/
def inputWatches (κ : Type) : Keepsake κ (InputWatch κ) where
  read := Watcher.inputWatch?
  applies := WatchKind.isInputs
  Fresh W := W.memo = none
  read_eq_none_iff := by
    rintro ⟨s, kind, byValue, active, last⟩
    cases kind <;> simp [Watcher.inputWatch?, WatchKind.isInputs]
  read_inactive := by
    rintro ⟨s, kind, byValue, active, last⟩
    cases kind <;> rfl
  applies_of_forget {a b} h := by
    cases a <;> cases b <;> first | rfl | cases h
  applies_collection _ _ _ _ _ _ := rfl
  applies_member _ _ _ := rfl
  fresh_of_read := by
    rintro ⟨s, kind, byValue, active, last⟩ W hW hkind -
    cases kind with
    | inputs e listener memo =>
      cases hW
      injection hkind with _ _ hmemo
      exact hmemo.symm
    | _ => cases hW

namespace Tree

variable {t u : Tree κ σ} {W : InputWatch κ}

/-- What the watcher keeps if it is registered and watches inputs. -/
def inputWatch? (t : Tree κ σ) (w : WatcherId) : Option (InputWatch κ) := (inputWatches κ).of? t w

/-- What the watcher remembers. -/
def memo? (t : Tree κ σ) (w : WatcherId) : Option Memo := (t.inputWatch? w).bind (·.memo)

lemma inputWatch?_eq_some_iff : t.inputWatch? w = some W ↔
    ∃ watcher, t.watcher? w = some watcher ∧ watcher.scope = W.scope ∧
      watcher.kind = .inputs W.expression W.listener W.memo := by
  refine Option.bind_eq_some_iff.trans (exists_congr fun watcher => and_congr_right fun _ => ?_)
  obtain ⟨s, kind, byValue, active, last⟩ := watcher
  obtain ⟨s', e', listener', memo'⟩ := W
  cases kind <;> simp [inputWatches, Watcher.inputWatch?]

lemma memo?_eq (hW : t.inputWatch? w = some W) : t.memo? w = W.memo := by
  rw [memo?, hW, Option.bind_some]

/-- What is remembered does not cover the inputs, so they are not the same. -/
lemma not_sameInputs_of_filter {inputs : List Value} (hW : t.inputWatch? w = some W)
    (hmemo : W.memo.filter (·.covers inputs) = none) :
    ∀ m ∈ t.memo? w, ¬ m.SameInputs inputs := by
  intro m hm hsame
  rw [memo?_eq hW] at hm
  exact Option.filter_eq_none_iff.1 hmemo m hm (Memo.covers_iff.2 hsame)

lemma inputWatch?_setKind (memo : Option Memo) (hW : t.inputWatch? w = some W) :
    (t.setKind w (.inputs W.expression W.listener memo)).inputWatch? w =
      some { W with memo } := by
  obtain ⟨watcher, hw, hscope, -⟩ := inputWatch?_eq_some_iff.1 hW
  have hself := watcher?_modifyWatcher_self (t := t) (w := w)
    ({ · with kind := .inputs W.expression W.listener memo })
  rw [hw] at hself
  exact inputWatch?_eq_some_iff.2 ⟨_, hself, hscope, rfl⟩

end Tree

/-! ## Checks -/

namespace Engine

/-- A watcher takes in what it observed.  That is no change, or it is recorded and the watcher does
something about it. -/
def TakesIn (E : Engine κ σ) (w : WatcherId) (new : Value) (t u : Tree κ σ) : Prop :=
  t.record w new = some (none, u) ∨ ∃ change x y r,
    t.record w new = some (some change, x) ∧
    runOn (E.notify w change) { x with lastDirty := some w } = some (r, y) ∧ E.Contains r y u

/-- What comes of a check of a watch of inputs.  The inputs are evaluated, and if one of them fails
the host is handed the error.  Else the result that is remembered is observed, if it is remembered
with the same inputs.  If it is not the expression is evaluated; an error of that is handed to the
host, and a value is remembered and observed. -/
inductive ProbesInputs (E : Engine κ σ) (w : WatcherId) (t : Tree κ σ) : Probe → Tree κ σ → Prop
  | blind {W : InputWatch κ} {e : Error} {v u : Tree κ σ} (hW : t.inputWatch? w = some W)
    (hinputs : runOn (E.evaluateInputs W.scope W.expression) (t.note (.checked w)) =
      some (.error e, v))
    (herror : runOn (E.reportError e) v = some (.ok (), u)) :
    ProbesInputs E w t ⟨t.memo? w, .error e, none, .error e, u.memo? w⟩ u
  | kept {W : InputWatch κ} {m : Memo} {inputs : List Value} {v u : Tree κ σ}
    (hW : t.inputWatch? w = some W)
    (hinputs : runOn (E.evaluateInputs W.scope W.expression) (t.note (.checked w)) =
      some (.ok inputs, v))
    (hmemo : W.memo = some m) (hcovers : m.covers inputs = true)
    (htaken : E.TakesIn w m.result v u) :
    ProbesInputs E w t ⟨t.memo? w, .ok inputs, none, .ok m.result, u.memo? w⟩ u
  | failed {W : InputWatch κ} {inputs : List Value} {e : Error} {v x u : Tree κ σ}
    (hW : t.inputWatch? w = some W)
    (hinputs : runOn (E.evaluateInputs W.scope W.expression) (t.note (.checked w)) =
      some (.ok inputs, v))
    (hmemo : W.memo.filter (·.covers inputs) = none)
    (heval : runOn (E.evaluate W.scope W.expression none) v = some (.error e, x))
    (herror : runOn (E.reportError e) x = some (.ok (), u)) :
    ProbesInputs E w t ⟨t.memo? w, .ok inputs, some (.error e), .error e, u.memo? w⟩ u
  | renewed {W : InputWatch κ} {inputs : List Value} {result : Value} {v x u : Tree κ σ}
    (hW : t.inputWatch? w = some W)
    (hinputs : runOn (E.evaluateInputs W.scope W.expression) (t.note (.checked w)) =
      some (.ok inputs, v))
    (hmemo : W.memo.filter (·.covers inputs) = none)
    (heval : runOn (E.evaluate W.scope W.expression none) v = some (.ok result, x))
    (htaken : E.TakesIn w result
      (x.setKind w (.inputs W.expression W.listener (some ⟨inputs, result⟩))) u) :
    ProbesInputs E w t ⟨t.memo? w, .ok inputs, some (.ok result), .ok result, u.memo? w⟩ u

variable {E : Engine κ σ} {t u : Tree κ σ} {W : InputWatch κ}

lemma ProbesInputs.exists_inputWatch? {p : Probe} (h : E.ProbesInputs w t p u) :
    ∃ W, t.inputWatch? w = some W := by
  cases h <;> exact ⟨_, ‹_›⟩

/-- A watch of inputs that is active is probed when it is visited. -/
lemma probes_of_visit {r : Except Error Findings} (hW : t.inputWatch? w = some W)
    (h : runOn (E.visitWatcher w) t = some (r, u)) : u = t ∨ ∃ p, E.ProbesInputs w t p u := by
  rcases visit_steps h with ⟨-, rfl⟩ | ⟨-, watcher, r₁, v, hw, hobserve, hrest⟩
  · exact .inl rfl
  refine .inr ?_
  obtain ⟨watcher', hw', hscope, hkind⟩ := Tree.inputWatch?_eq_some_iff.1 hW
  cases hw.symm.trans hw'
  rw [hscope, hkind, observe, observeInputs] at hobserve
  rcases runOn_bind_cases hobserve with ⟨e, hinputs, rfl⟩ | ⟨inputs, x, hinputs, hobserve⟩
  · rcases hrest with ⟨e', he, herror⟩ | ⟨new, hnew, -⟩
    · cases he
      exact ⟨_, .blind hW hinputs herror⟩
    · cases hnew
  cases hmemo : W.memo.filter (·.covers inputs) with
  | some m =>
    rw [hmemo] at hobserve
    cases hobserve
    obtain ⟨hm, hcovers⟩ := Option.filter_eq_some_iff.1 hmemo
    rcases hrest with ⟨e', he, -⟩ | ⟨new, hnew, htaken⟩
    · cases he
    · cases hnew
      exact ⟨_, .kept hW hinputs hm hcovers htaken⟩
  | none =>
    rw [hmemo] at hobserve
    rcases runOn_bind_cases hobserve with ⟨e, heval, rfl⟩ | ⟨result, y, heval, hobserve⟩
    · rcases hrest with ⟨e', he, herror⟩ | ⟨new, hnew, -⟩
      · cases he
        exact ⟨_, .failed hW hinputs hmemo heval herror⟩
      · cases hnew
    · cases hobserve
      rcases hrest with ⟨e', he, -⟩ | ⟨new, hnew, htaken⟩
      · cases he
      · cases hnew
        exact ⟨_, .renewed hW hinputs hmemo heval htaken⟩

end Engine

namespace Host

variable {H : Host κ σ} {limit : ℕ} {t u : Tree κ σ} {W : InputWatch κ}

/-- To record a change does not change what a watch of inputs keeps. -/
lemma inputWatch?_of_record {new : Value} {change : Option Change}
    (hW : t.inputWatch? w = some W) (h : t.record w new = some (change, u)) :
    u.inputWatch? w = some W ∧ u.phase = t.phase ∧ u.checksOf w = t.checksOf w := by
  rcases change with _ | change
  · obtain ⟨-, rfl⟩ | ⟨_, _, _, hchange, -⟩ := Tree.record_cases h
    · exact ⟨hW, rfl, rfl⟩
    · cases hchange
  · obtain ⟨watcher, frozen, hw, -, -, hu, -⟩ := Tree.record_some_cases h
    obtain ⟨watcher', hw', hscope, hkind⟩ := Tree.inputWatch?_eq_some_iff.1 hW
    cases hw.symm.trans hw'
    obtain ⟨_, _, rfl⟩ := Tree.eq_of_record h
    exact ⟨Tree.inputWatch?_eq_some_iff.2 ⟨_, hu, hscope, hkind⟩, rfl, rfl⟩

/-- What a watch of inputs remembers is not changed by what it does about a change. -/
lemma inputWatch?_of_takesIn {new : Value} (hphase : t.phase = some .digest)
    (hW : t.inputWatch? w = some W) (h : (H.engine limit).TakesIn w new t u) :
    u.inputWatch? w = some W ∧ u.checksOf w = t.checksOf w := by
  rcases h with hclean | ⟨change, x, y, r, hrecord, hnotify, hend⟩
  · obtain ⟨hu, -, hchecks⟩ := inputWatch?_of_record hW hclean
    exact ⟨hu, hchecks⟩
  · obtain ⟨hx, hphase', hchecks⟩ := inputWatch?_of_record hW hrecord
    obtain ⟨watcher, hw, -, hkind⟩ := Tree.inputWatch?_eq_some_iff.1 hx
    rw [Engine.notify, Compute.runOn_read_bind,
      show Tree.watcher? { x with lastDirty := some w } w = _ from hw] at hnotify
    dsimp only at hnotify
    rw [hkind, Engine.react] at hnotify
    obtain ⟨r', hcall, -⟩ := Compute.runOn_discard_cases hnotify
    obtain ⟨-, hy, hchecks'⟩ := Keepsake.overlooks_call (K := inputWatches κ)
      (t := { x with lastDirty := some w }) (hphase'.trans hphase) hx hcall
    obtain ⟨hu, hchecks''⟩ := Keepsake.overlooks_closes hy hend.closes
    exact ⟨hu, hchecks''.trans (hchecks'.trans hchecks)⟩

/-- Evaluations change nothing but the store. -/
lemma inputWatch?_of_evaluated (hphase : t.phase = some .digest) (hW : t.inputWatch? w = some W)
    (h : t.Evaluated u) :
    u.phase = some .digest ∧ u.inputWatch? w = some W ∧ u.checksOf w = t.checksOf w := by
  obtain ⟨store, rfl⟩ := h
  exact ⟨hphase, hW, rfl⟩

/-- What a watch of inputs remembers after a check is what the rules of the memory say. -/
lemma faithful_of_probes {p : Probe} (hphase : t.phase = some .digest)
    (h : (H.engine limit).ProbesInputs w t p u) :
    p.Faithful ∧ p.before = t.memo? w ∧ p.after = u.memo? w ∧
      (∃ W, u.inputWatch? w = some W) ∧ u.checksOf w = t.checksOf w + 1 := by
  have hchecked := Keepsake.checksOf_checked t w
  have hinputs {W : InputWatch κ} {r v} (hW : t.inputWatch? w = some W)
      (hrun : runOn ((H.engine limit).evaluateInputs W.scope W.expression)
        (t.note (.checked w)) = some (r, v)) :=
    inputWatch?_of_evaluated (t := t.note (.checked w)) hphase hW
      (Engine.evaluated_evaluateInputs W.scope W.expression hrun)
  cases h with
  | @blind W e v _ hW hrun herror =>
    obtain ⟨-, hv, hchecks⟩ := hinputs hW hrun
    obtain ⟨hu, hchecks'⟩ :=
      Keepsake.overlooks_closes (K := inputWatches κ) hv (.inr ⟨_, herror⟩)
    refine ⟨⟨nofun, ?_, fun _ _ => rfl, nofun⟩, rfl, rfl, ⟨W, hu⟩,
      hchecks'.trans (hchecks.trans hchecked)⟩
    exact (Tree.memo?_eq hu).trans (Tree.memo?_eq hW).symm
  | @kept W m inputs v _ hW hrun hmemo hcovers htaken =>
    obtain ⟨hphase', hv, hchecks⟩ := hinputs hW hrun
    obtain ⟨hu, hchecks'⟩ := inputWatch?_of_takesIn hphase' hv htaken
    have hbefore : t.memo? w = some m := (Tree.memo?_eq hW).trans hmemo
    have hafter : u.memo? w = some m := (Tree.memo?_eq hu).trans hmemo
    have hsame := Memo.covers_iff.1 hcovers
    refine ⟨⟨?_, hafter.trans hbefore.symm, fun _ _ => rfl, ?_⟩, rfl, rfl, ⟨W, hu⟩,
      hchecks'.trans (hchecks.trans hchecked)⟩
    · rintro _ ⟨⟩
      exact iff_of_false Bool.false_ne_true fun hnone => hnone m hbefore hsame
    · rintro _ ⟨⟩
      exact ⟨inputs, m, rfl, hafter, rfl, hsame⟩
  | @failed W inputs e v x _ hW hrun hmemo heval herror =>
    obtain ⟨hphase', hv, hchecks⟩ := hinputs hW hrun
    obtain ⟨-, hx, hchecks'⟩ :=
      inputWatch?_of_evaluated hphase' hv (Engine.evaluated_evaluate _ _ _ heval)
    obtain ⟨hu, hchecks''⟩ :=
      Keepsake.overlooks_closes (K := inputWatches κ) hx (.inr ⟨_, herror⟩)
    refine ⟨⟨?_, ?_, fun _ _ => rfl, nofun⟩, rfl, rfl, ⟨W, hu⟩,
      hchecks''.trans (hchecks'.trans (hchecks.trans hchecked))⟩
    · rintro _ ⟨⟩
      exact iff_of_true rfl (Tree.not_sameInputs_of_filter hW hmemo)
    · exact (Tree.memo?_eq hu).trans (Tree.memo?_eq hW).symm
  | @renewed W inputs result v x _ hW hrun hmemo heval htaken =>
    obtain ⟨hphase', hv, hchecks⟩ := hinputs hW hrun
    obtain ⟨hphase'', hx, hchecks'⟩ :=
      inputWatch?_of_evaluated hphase' hv (Engine.evaluated_evaluate _ _ _ heval)
    have hset := Tree.inputWatch?_setKind (some ⟨inputs, result⟩) hx
    obtain ⟨hu, hchecks''⟩ := inputWatch?_of_takesIn (t := x.setKind w _) hphase'' hset htaken
    have hafter : u.memo? w = some ⟨inputs, result⟩ := Tree.memo?_eq hu
    refine ⟨⟨?_, hafter, nofun, ?_⟩, rfl, rfl, ⟨_, hu⟩,
      hchecks''.trans (hchecks'.trans (hchecks.trans hchecked))⟩
    · rintro _ ⟨⟩
      exact iff_of_true rfl (Tree.not_sameInputs_of_filter hW hmemo)
    · rintro _ ⟨⟩
      exact ⟨inputs, _, rfl, hafter, rfl, List.forall₂_same.2 fun v _ => v.same_self⟩

end Host

/-! ## Vigils -/

/-- A stretch of a run with the checks of a watch of inputs, each with what came of it.  In between
nothing happens to the watch. -/
abbrev Host.InputVigil (H : Host κ σ) (w : WatcherId) :
    Tree κ σ → List Probe → Tree κ σ → Prop :=
  (inputWatches κ).Vigil (·.ProbesInputs w) H w

namespace Host.InputVigil

variable {H : Host κ σ} {t u : Tree κ σ} {ps : List Probe}

/-- The probes are a chronicle of what is remembered. -/
theorem chronicle (h : H.InputVigil w t ps u) (ht : t.inputWatch? w = .none) :
    Chronicle .none ps (u.memo? w) := by
  induction h with
  | none =>
    rw [Tree.memo?, ht]
    exact .nil _
  | @aside u v ps _ haside ih =>
    have hsame : v.memo? w = u.memo? w := by
      cases hu : u.inputWatch? w with
      | some W => rw [Tree.memo?_eq (haside.keeps.kept hu), Tree.memo?_eq hu]
      | none =>
        rw [Tree.memo?, Tree.memo?, hu]
        cases hv : v.inputWatch? w with
        | none => rfl
        | some W => exact haside.keeps.fresh hu hv
    rw [hsame]
    exact ih
  | visit _ hphase _ hprobes ih =>
    obtain ⟨hfaithful, hbefore, hafter, -⟩ := faithful_of_probes hphase hprobes
    rw [← hafter]
    rw [← hbefore] at ih
    exact ih.append (.cons hfaithful (.nil _))

/-- The journal notes the checks. -/
theorem checksOf_eq (h : H.InputVigil w t ps u) :
    (inputWatches κ).Foreign w u ∨ u.checksOf w = t.checksOf w + ps.length :=
  Keepsake.Vigil.checksOf_eq h fun _ hphase hprobes => by
    obtain ⟨-, -, -, -, hchecks⟩ := faithful_of_probes hphase hprobes
    exact ⟨hprobes.exists_inputWatch?, hchecks⟩

end Host.InputVigil

/-! ## The memory -/

/-- A run is a vigil for each watch of inputs, with all its checks, whatever happens to the heap in
between and whatever fails.  What is remembered before and after a check is what the last evaluation
of the expression that succeeded left.  If the inputs have values the expression is evaluated just
if there was no such evaluation or some input is not the same as it was then.  A check that fails
leaves what is remembered as it was.  One that succeeds answers the value of the last evaluation
that succeeded, which was made when the inputs were the same as now. -/
theorem Host.inputs_watch_never_stale (H : Host κ σ) (w : WatcherId) (store : Store σ)
    (compiler : Compiler) (config : Config) (timed : Bool) :
    (∀ {α : Type} (limit : ℕ) (p : Program κ σ α) (r : Except Error α) (u : Tree κ σ),
      H.run limit p (.plant store compiler config timed) = some (r, u) →
      ∃ ps, H.InputVigil w (.plant store compiler config timed) ps u) ∧
    ∀ (ps : List Probe) (u : Tree κ σ),
      H.InputVigil w (.plant store compiler config timed) ps u →
      (∀ W, u.inputWatch? w = some W → ps.length = u.checksOf w ∧ W.memo = lastSuccess ps) ∧
      ∀ before p after, ps = before ++ p :: after →
        p.before = lastSuccess before ∧ p.after = lastSuccess (before ++ [p]) ∧
        (∀ inputs, p.inputs = .ok inputs →
          (p.evaluated.isSome = true ↔
            ∀ m ∈ lastSuccess before, ¬ m.SameInputs inputs)) ∧
        (∀ e, p.answer = .error e → p.after = p.before) ∧
        ∀ v, p.answer = .ok v → ∃ inputs m, p.inputs = .ok inputs ∧
          lastSuccess (before ++ [p]) = some m ∧ m.result = v ∧ m.SameInputs inputs := by
  refine ⟨fun limit p r u h => ?_, fun ps u h => ⟨fun W hW => ⟨?_, ?_⟩, ?_⟩⟩
  · exact Keepsake.Vigil.of_run (inputWatches κ) (·.ProbesInputs w) w
      (fun _ hW hvisit => Engine.probes_of_visit hW hvisit) h
  · rw [h.checksOf_eq.resolve_left (Keepsake.not_foreign_of_of? hW)]
    exact (Nat.zero_add _).symm
  · rw [← (h.chronicle rfl).eq_lastSuccess, Tree.memo?_eq hW]
  · rintro before p after rfl
    obtain ⟨m, hbefore, hrest⟩ := (h.chronicle rfl).exists_of_append
    cases hrest with
    | cons hp _ =>
      have hlast : p.before = lastSuccess before := hbefore.eq_lastSuccess
      have hlast' : p.after = lastSuccess (before ++ [p]) :=
        (hbefore.append (.cons hp (.nil _))).eq_lastSuccess
      refine ⟨hlast, hlast', fun inputs hinputs => ?_, fun e he => ?_, fun v hv => ?_⟩
      · rw [← hlast]
        exact hp.evaluated_iff inputs hinputs
      · rw [hp.after_eq, hp.failed e he, Option.none_or]
      · rw [← hlast']
        exact hp.answered v hv

/-! ## A host that reads a gauge -/

/-- The only procedure of a host that is told of a reading. -/
inductive Gauge
  | told

/-- A host with a filter that lets one value pass and fails otherwise. -/
def gauge : Host Gauge Unit where
  library := ⟨fun _ _ _ => .endless, fun _ args =>
    match args with
    | [.bool true] => pure (.bool true)
    | _ => throw (.callback "no reading")⟩
  report := fun _ host => host
  procedure | .told, _ => return .undefined

/-- Watches a filtered property of the root, through the property. -/
def gaugeSetup : Program Gauge Unit Unit :=
  discard <| Program.request (.watchExpression rootId "a|f" .told false)

/-- What is watched. -/
def gaugeReading : Expression where
  source := "a|f"
  body := [.filter "f" (.place (.name "a")) []]
  filters := [("f", ⟨"f", false⟩)]
  oneTime := false

/-- The compiler that the host begins with. -/
def gaugeCompiler : Compiler := ⟨⟨[("f", ⟨"f", false⟩)]⟩, .empty⟩

/-- The tree that the host begins with. -/
def gaugePlant : Tree Gauge Unit := .plant ⟨.empty, ()⟩ gaugeCompiler {} false

/-- The watch. -/
def gaugeWatcher (memo : Option Memo) (last : Option Frozen) : Watcher Gauge where
  scope := rootId
  kind := .inputs gaugeReading .told memo
  byValue := false
  last := last

/-- What the watch keeps. -/
def gaugeWatch (memo : Option Memo) : InputWatch Gauge := ⟨rootId, gaugeReading, .told, memo⟩

/-- The tree with the watch. -/
def gaugeTree : Tree Gauge Unit :=
  { gaugePlant with
    compiler := { gaugeCompiler with cache := ⟨[("a|f", gaugeReading)]⟩ }
    scopes := #[{ data := 0, parent := none, isolated := false, watchers := [0] }]
    watchers := #[gaugeWatcher none none] }

/-- The property gets another value. -/
def gaugeSet (b : Bool) (t : Tree Gauge Unit) : Tree Gauge Unit :=
  { t with store := { t.store with heap := t.store.heap.setOwn 0 "a" (.bool b) } }

/-- The tree after a check that failed. -/
def gaugeFailed (t : Tree Gauge Unit) : Tree Gauge Unit :=
  (t.note (.checked 0)).note (.reported (.callback "no reading"))

/-- What is remembered of the reading that succeeds. -/
def gaugeMemo : Memo := ⟨[.bool true], .bool true⟩

/-- The tree after the check that reads the value. -/
def gaugeRead (t : Tree Gauge Unit) : Tree Gauge Unit :=
  { (t.note (.checked 0)).note (.called .told (.changed rootId ⟨.bool true, .bool true⟩)) with
    watchers := #[gaugeWatcher (some gaugeMemo) (some (.leaf (.bool true)))]
    lastDirty := some 0 }

/-- The property is missing at the first check. -/
def gaugeMissing : Tree Gauge Unit := gaugeTree.begun.note (.pass rootId)

/-- At the second check it has a value that passes. -/
def gaugeSteady : Tree Gauge Unit := gaugeSet true (gaugeFailed gaugeMissing)

/-- At the third check it has another value. -/
def gaugeUnsteady : Tree Gauge Unit := gaugeSet false (gaugeRead gaugeSteady)

/-- At the fourth check it has the same value as at the second one. -/
def gaugeSteadyAgain : Tree Gauge Unit := gaugeSet true (gaugeFailed gaugeUnsteady)

/-- What comes of the four checks. -/
def gaugeProbes : List Probe :=
  [⟨none, .ok [.undefined], some (.error (.callback "no reading")),
      .error (.callback "no reading"), none⟩,
    ⟨none, .ok [.bool true], some (.ok (.bool true)), .ok (.bool true), some gaugeMemo⟩,
    ⟨some gaugeMemo, .ok [.bool false], some (.error (.callback "no reading")),
      .error (.callback "no reading"), some gaugeMemo⟩,
    ⟨some gaugeMemo, .ok [.bool true], none, .ok (.bool true), some gaugeMemo⟩]

lemma gauge_run : gauge.run 9 gaugeSetup gaugePlant = some (.ok (), gaugeTree) := by
  cbv

/-- There is no value at first, so nothing comes to be remembered. -/
lemma gauge_probes_missing :
    (gauge.engine 9).ProbesInputs 0 gaugeMissing gaugeProbes[0] (gaugeFailed gaugeMissing) := by
  have hinputs : runOn ((gauge.engine 9).evaluateInputs rootId gaugeReading)
      (gaugeMissing.note (.checked 0)) =
        some (.ok [.undefined], gaugeMissing.note (.checked 0)) := by
    cbv
  have heval : runOn ((gauge.engine 9).evaluate rootId gaugeReading none)
      (gaugeMissing.note (.checked 0)) =
        some (.error (.callback "no reading"), gaugeMissing.note (.checked 0)) := by
    cbv
  exact .failed (W := gaugeWatch none) rfl hinputs rfl heval rfl

lemma gauge_probes_steady :
    (gauge.engine 9).ProbesInputs 0 gaugeSteady gaugeProbes[1] (gaugeRead gaugeSteady) := by
  have hinputs : runOn ((gauge.engine 9).evaluateInputs rootId gaugeReading)
      (gaugeSteady.note (.checked 0)) = some (.ok [.bool true], gaugeSteady.note (.checked 0)) := by
    cbv
  have heval : runOn ((gauge.engine 9).evaluate rootId gaugeReading none)
      (gaugeSteady.note (.checked 0)) = some (.ok (.bool true), gaugeSteady.note (.checked 0)) := by
    cbv
  exact .renewed (W := gaugeWatch none) rfl hinputs rfl heval
    (.inr ⟨⟨.bool true, .bool true⟩, _, _, .ok (), rfl, rfl, .inl ⟨rfl, rfl⟩⟩)

/-- The inputs of the check that fails are not remembered, either. -/
lemma gauge_probes_unsteady :
    (gauge.engine 9).ProbesInputs 0 gaugeUnsteady gaugeProbes[2] (gaugeFailed gaugeUnsteady) := by
  have hinputs : runOn ((gauge.engine 9).evaluateInputs rootId gaugeReading)
      (gaugeUnsteady.note (.checked 0)) =
        some (.ok [.bool false], gaugeUnsteady.note (.checked 0)) := by
    cbv
  have heval : runOn ((gauge.engine 9).evaluate rootId gaugeReading none)
      (gaugeUnsteady.note (.checked 0)) =
        some (.error (.callback "no reading"), gaugeUnsteady.note (.checked 0)) := by
    cbv
  exact .failed (W := gaugeWatch gaugeMemo) rfl hinputs rfl heval rfl

lemma gauge_probes_again :
    (gauge.engine 9).ProbesInputs 0 gaugeSteadyAgain gaugeProbes[3]
      (gaugeSteadyAgain.note (.checked 0)) := by
  have hinputs : runOn ((gauge.engine 9).evaluateInputs rootId gaugeReading)
      (gaugeSteadyAgain.note (.checked 0)) =
        some (.ok [.bool true], gaugeSteadyAgain.note (.checked 0)) := by
    cbv
  exact .kept (W := gaugeWatch gaugeMemo) rfl hinputs rfl rfl (.inl rfl)

/-- The property is watched, and checked four times. -/
lemma gauge_vigil :
    gauge.InputVigil 0 gaugePlant gaugeProbes (gaugeSteadyAgain.note (.checked 0)) := by
  have hC := (inputWatches Gauge).lawful_concern Unit 0
  have hset (b : Bool) (t : Tree Gauge Unit) :
      ((inputWatches Gauge).concern Unit 0).Aside t (gaugeSet b t) :=
    ⟨.of_frame rfl, .of_watcher?_eq rfl rfl⟩
  have hpass : ((inputWatches Gauge).concern Unit 0).Aside gaugeTree.begun gaugeMissing :=
    ⟨.of_frame rfl, .of_watcher?_eq rfl rfl⟩
  have hsetup : gauge.InputVigil 0 gaugePlant [] gaugeTree := by
    obtain ⟨ps, hps⟩ := Keepsake.Vigil.of_run (inputWatches Gauge) (·.ProbesInputs 0) 0
      (fun _ hW hvisit => Engine.probes_of_visit hW hvisit) gauge_run
    have hlength : 0 = 0 + ps.length :=
      (Host.InputVigil.checksOf_eq hps).resolve_left (Keepsake.not_foreign_of_of? rfl)
    rw [List.eq_nil_of_length_eq_zero (l := ps) (by omega)] at hps
    exact hps
  have hmissing := (hsetup.aside (hC.aside_begun _)).aside hpass
  have hfirst := hmissing.visit (r := .ok {}) rfl (by cbv) gauge_probes_missing
  have hsecond := (hfirst.aside (hset true _)).visit (r := .ok { dirty := true })
    rfl (by cbv) gauge_probes_steady
  have hthird := (hsecond.aside (hset false _)).visit (r := .ok {}) rfl (by cbv)
    gauge_probes_unsteady
  -- The last watcher that was dirty is clean now, which ends the pass.
  exact (hthird.aside (hset true _)).visit (r := .ok { ended := true }) rfl (by cbv)
    gauge_probes_again

/-- The check that fails after a success does not touch what is remembered, so that the next one
with the same input as then answers what is remembered and does not evaluate the expression. -/
theorem gauge_remembers_across_failure : ∃ ps,
    gauge.InputVigil 0 gaugePlant ps gaugeTree ∧
      gauge.InputVigil 0 gaugePlant gaugeProbes (gaugeSteadyAgain.note (.checked 0)) ∧
      gaugeProbes.length = (gaugeSteadyAgain.note (.checked 0)).checksOf 0 ∧
      lastSuccess (gaugeProbes.take 3) = some gaugeMemo ∧
      gaugeProbes[2].after = gaugeProbes[2].before ∧
      (gaugeProbes[3].evaluated.isSome = true ↔
        ∀ m ∈ lastSuccess (gaugeProbes.take 3), ¬ m.SameInputs [.bool true]) ∧
      ∃ m, lastSuccess gaugeProbes = some m ∧ m.result = .bool true ∧
        m.SameInputs [.bool true] := by
  obtain ⟨hruns, hvigils⟩ := gauge.inputs_watch_never_stale 0 ⟨.empty, ()⟩ gaugeCompiler {} false
  obtain ⟨ps, hsetup⟩ := hruns 9 gaugeSetup _ _ gauge_run
  obtain ⟨hwatch, hprobes⟩ := hvigils _ _ gauge_vigil
  obtain ⟨hlength, -⟩ := hwatch _ rfl
  obtain ⟨-, -, -, hkept, -⟩ := hprobes (gaugeProbes.take 2) gaugeProbes[2] [gaugeProbes[3]] rfl
  obtain ⟨hbefore, -, hevaluated, -, hanswered⟩ :=
    hprobes (gaugeProbes.take 3) gaugeProbes[3] [] rfl
  obtain ⟨inputs, m, hinputs, hm, hresult, hsame⟩ := hanswered (.bool true) rfl
  cases hinputs
  exact ⟨ps, hsetup, gauge_vigil, hlength, hbefore.symm, hkept _ rfl, hevaluated _ rfl, m, hm,
    hresult, hsame⟩

end DataBinding
