import DataBinding.Proofs.CallSites

/-!
# Runs are tracks

A juncture of a run is the tree together with the watchers that are being checked
(`Juncture`).  A track goes from juncture to juncture and collects what is done on the way: which
procedure is called, and for which watcher, listener or task (`Juncture.Track`).  Unlike a story it
does not keep what else the calls in progress are in the middle of, and it keeps account of what a
call uses up: a check ends when the host is told of a change or a group is handed one, and a task
is gone once it has called a procedure.

Every run is a track (`Host.track_of_run`), and the calls in the track are those that the journal
notes (`Juncture.Track.calls`).
-/

namespace DataBinding

open Compute (Leads runOn runOn_bind_cases)
open DataBinding.Tree (Shifts)

variable {κ σ α : Type}

/-! ## Junctures -/

/-- A juncture of a run: the watchers that are being checked, the last check first, and the
tree. -/
structure Juncture (κ σ : Type) where
  checks : List WatcherId
  tree : Tree κ σ

namespace Juncture

/-- What can be the next juncture, and what is done on the way to it. -/
inductive Next : Juncture κ σ → List (Deed κ) → Juncture κ σ → Prop
  | shift {cs : List WatcherId} {t u : Tree κ σ} (h : t.Shift u) : Next ⟨cs, t⟩ [] ⟨cs, u⟩
  | check {cs : List WatcherId} {t : Tree κ σ} {w : WatcherId} (h : t.isActive w = true) :
    Next ⟨cs, t⟩ [] ⟨w :: cs, t.note (.checked w)⟩
  | watch {cs : List WatcherId} {t : Tree κ σ} {w : WatcherId} {watcher : Watcher κ}
    {procedure : κ} (hw : t.watcher? w = some watcher)
    (hwatch : watcher.kind.watch? = some procedure) :
    Next ⟨w :: cs, t⟩ [.watch w watcher procedure]
      ⟨w :: cs, t.note (.called procedure (.watch watcher.scope))⟩
  | checked {cs : List WatcherId} {t : Tree κ σ} {w : WatcherId} : Next ⟨w :: cs, t⟩ [] ⟨cs, t⟩
  | tell {cs : List WatcherId} {t u : Tree κ σ} {τ : Telling κ} {procedure : κ} {how : Invocation}
    (hrecord : τ.OfRecord t u) (hcall : τ.call? = some (procedure, how)) :
    Next ⟨τ.id :: cs, t⟩ [.tell τ]
      ⟨cs, (τ.prepared { u with lastDirty := some τ.id }).note (.called procedure how)⟩
  | take {cs : List WatcherId} {t u : Tree κ σ} {τ : Telling κ} {g : GroupId}
    (hrecord : τ.OfRecord t u) (hgroup : τ.watcher.kind.group? = some g) :
    Next ⟨τ.id :: cs, t⟩ [] ⟨cs, { u with lastDirty := some τ.id }⟩
  | hand {cs : List WatcherId} {t u v : Tree κ σ} {τ : Telling κ} {g : GroupId}
    (hrecord : τ.OfRecord t u) (hgroup : τ.watcher.kind.group? = some g)
    (hshifts : { u with lastDirty := some τ.id }.Shifts v) :
    Next ⟨τ.id :: cs, t⟩ [] ⟨cs, v.queueAsync τ.watcher.scope (.group g)⟩
  | start {cs : List WatcherId} {t u : Tree κ σ} {q : Queue} {task : Task κ}
    (h : t.dequeue? q = some (task, u)) : Next ⟨cs, t⟩ [] ⟨cs, u⟩
  | work {cs : List WatcherId} {t u v : Tree κ σ} {q : Queue} {task : Task κ} {procedure : κ}
    {how : Invocation} (h : t.dequeue? q = some (task, u)) (hshifts : u.Shifts v)
    (hcalls : task.Calls v procedure how) :
    Next ⟨cs, t⟩ [.work task procedure how] ⟨cs, v.note (.called procedure how)⟩
  | hear {cs : List WatcherId} {t : Tree κ σ} {l : ListenerId} {listener : Listener κ}
    (e : EventId) (args : List Value) (hl : t.listeners[l]? = some listener)
    (hactive : listener.active = true) :
    Next ⟨cs, t⟩ [.hear l listener e args]
      ⟨cs, t.note (.called listener.procedure (.event e args))⟩
  | body {cs : List WatcherId} {t : Tree κ σ} (procedure : κ) (s : ScopeId) :
    Next ⟨cs, t⟩ [.body procedure s] ⟨cs, t.note (.called procedure (.body s))⟩

/-- Junctures one after another, and all that is done. -/
inductive Track : Juncture κ σ → List (Deed κ) → Juncture κ σ → Prop
  | none (m : Juncture κ σ) : Track m [] m
  | more {m m' m'' : Juncture κ σ} {ds ds' : List (Deed κ)} (htrack : Track m ds m')
    (hnext : Next m' ds' m'') : Track m (ds ++ ds') m''

variable {m m' m'' : Juncture κ σ} {ds ds' : List (Deed κ)}

lemma Next.track (h : Next m ds m') : Track m ds m' := .more (.none m) h

lemma Track.trans (h : Track m ds m') (h' : Track m' ds' m'') : Track m (ds ++ ds') m'' := by
  induction h' with
  | none =>
    rw [List.append_nil]
    exact h
  | more _ hnext ih =>
    rw [← List.append_assoc]
    exact .more ih hnext

/-- The journal notes the calls that are made. -/
lemma Next.calls (h : Next m ds m') :
    m'.tree.calls = (ds.filterMap Deed.call?).reverse ++ m.tree.calls := by
  cases h with
  | shift h => exact h.calls
  | start h => exact Tree.calls_of_dequeue? h
  | work h hshifts =>
    exact congrArg (_ :: ·) (hshifts.calls.trans (Tree.calls_of_dequeue? h))
  | @tell cs t u τ procedure how hrecord hcall =>
    obtain ⟨new, hnew⟩ := hrecord.record
    obtain ⟨_, _, rfl⟩ := Tree.eq_of_record hnew
    have hdeed : (Deed.tell τ).call? = some (procedure, how) := hcall
    rw [List.filterMap_cons_some hdeed]
    exact congrArg (_ :: ·) (τ.calls_prepared _)
  | take hrecord =>
    obtain ⟨new, hnew⟩ := hrecord.record
    obtain ⟨_, _, rfl⟩ := Tree.eq_of_record hnew
    rfl
  | hand hrecord hgroup hshifts =>
    obtain ⟨new, hnew⟩ := hrecord.record
    obtain ⟨_, _, rfl⟩ := Tree.eq_of_record hnew
    exact (Tree.calls_queueAsync _ _ _).trans hshifts.calls
  | _ => rfl

/-- The journal notes the calls that are made, the last one first. -/
theorem Track.calls (h : Track m ds m') :
    m'.tree.calls = (ds.filterMap Deed.call?).reverse ++ m.tree.calls := by
  induction h with
  | none => rfl
  | more _ hnext ih =>
    rw [hnext.calls, ih, List.filterMap_append, List.reverse_append, List.append_assoc]

end Juncture

open Juncture (Next Track)

/-! ## Detours -/

namespace Tree

/-- There is a track from the one tree to the other, whatever is being checked. -/
def Detour (t u : Tree κ σ) : Prop := ∀ cs, ∃ ds, Track ⟨cs, t⟩ ds ⟨cs, u⟩

variable {t u : Tree κ σ}

instance : IsPreorder (Tree κ σ) Detour where
  refl t cs := ⟨[], .none _⟩
  trans _ _ _ h₁ h₂ cs := by
    obtain ⟨ds₁, htrack₁⟩ := h₁ cs
    obtain ⟨ds₂, htrack₂⟩ := h₂ cs
    exact ⟨_, htrack₁.trans htrack₂⟩

lemma Shift.detour (h : t.Shift u) : Detour t u := fun _ => ⟨_, (Next.shift h).track⟩

lemma Shifts.detour (h : t.Shifts u) : Detour t u := h.related Shift.detour

lemma proceeds_detour : Proceeds (Detour (κ := κ) (σ := σ)) where
  edit h := (Shift.edit h).detour
  beginDestroy h := (Shift.beginDestroy h).detour
  tearDown {_ u s} h hu :=
    trans_of Detour (trans_of Detour (Shift.beginDestroy h).detour hu) (Shift.tearDown u s).detour
  tick h := (Shift.tick h).detour
  enter h := (Shift.enter h).detour
  leave := (Shift.leave _ _).detour
  start := (Shift.start _).detour

end Tree

open DataBinding.Tree (Detour proceeds_detour)

namespace Engine

variable {E : Engine κ σ} {t u : Tree κ σ}

variable (hcall : ∀ procedure how, Leads Detour (E.invoke procedure how))

include hcall

/-- What comes of a call once it is noted. -/
lemma Calls.detour {procedure : κ} {how : Invocation} (h : E.Calls procedure how t u) :
    Detour (t.note (.called procedure how)) u := by
  obtain ⟨r, v, hrun, hshifts⟩ := h
  exact trans_of Detour (hcall procedure how hrun) hshifts.detour

lemma detour_hear (e : EventId) (args : List Value) (l : ListenerId) :
    Leads Detour (E.hear e args l) := by
  intro t r u h
  obtain ⟨-, ⟨-, rfl⟩ | ⟨listener, hl, hactive, hcalls⟩⟩ := hear_cases h
  · exact refl_of Detour u
  · intro cs
    obtain ⟨ds, htrack⟩ := hcalls.detour hcall cs
    exact ⟨_, (Next.hear e args hl hactive).track.trans htrack⟩

lemma detour_drain (q : Queue) : Leads Detour (E.drain q) := by
  refine leads_drain_of_task fun {t task u r v} hnext hrun cs => ?_
  rcases run_cases hrun with hshifts | ⟨w, procedure, how, hshifts, hcalls, hcalled⟩
  · obtain ⟨ds, htrack⟩ := hshifts.detour cs
    exact ⟨_, (Next.start hnext).track.trans htrack⟩
  · obtain ⟨ds, htrack⟩ := hcalled.detour hcall cs
    exact ⟨_, (Next.work hnext hshifts hcalls).track.trans htrack⟩

/-- What a watcher does about a change that it recorded ends the check. -/
lemma track_notify {τ : Telling κ} {v : Tree κ σ} {r : Except Error Unit}
    (hrecord : τ.OfRecord t v)
    (h : runOn (E.notify τ.id τ.change) { v with lastDirty := some τ.id } = some (r, u))
    (cs : List WatcherId) : ∃ ds, Track ⟨τ.id :: cs, t⟩ ds ⟨cs, u⟩ := by
  rcases notify_cases hrecord.watcher_marked hrecord.told h with
    ⟨procedure, how, hcalls, hcalled⟩ | ⟨g, hgroup, hshifts | ⟨w, hshifts, rfl⟩⟩
  · obtain ⟨ds, htrack⟩ := hcalled.detour hcall cs
    exact ⟨_, (Next.tell hrecord hcalls).track.trans htrack⟩
  · obtain ⟨ds, htrack⟩ := hshifts.detour cs
    exact ⟨_, (Next.take hrecord hgroup).track.trans htrack⟩
  · exact ⟨_, (Next.hand hrecord hgroup hshifts).track⟩

lemma detour_visitWatcher (w : WatcherId) : Leads Detour (E.visitWatcher w) := by
  intro t r u h
  rcases visit_parts h with ⟨-, rfl⟩ | ⟨hactive, watcher, r₁, v, hw, hobserve, hrest⟩
  · exact refl_of Detour u
  intro cs
  have hchecking : ∃ ds, Track ⟨cs, t⟩ ds ⟨w :: cs, v⟩ := by
    rcases observe_cases (t := t.note (.checked w)) hw hobserve with
      hshifts | ⟨procedure, hwatch, hcalled⟩
    · obtain ⟨ds, htrack⟩ := hshifts.detour (w :: cs)
      exact ⟨_, (Next.check hactive).track.trans htrack⟩
    · obtain ⟨ds, htrack⟩ := hcalled.detour hcall (w :: cs)
      have hwatched : Track ⟨w :: cs, t.note (.checked w)⟩ [.watch w watcher procedure]
          ⟨w :: cs, (t.note (.checked w)).note (.called procedure (.watch watcher.scope))⟩ :=
        (Next.watch (t := t.note (.checked w)) hw hwatch).track
      exact ⟨_, ((Next.check hactive).track.trans hwatched).trans htrack⟩
  obtain ⟨ds, hchecking⟩ := hchecking
  rcases hrest with hcloses | ⟨τ, v₁, v₂, r₂, rfl, hrecord, hnotify, hcloses⟩
  · obtain ⟨ds', htrack⟩ := hcloses.shifts.detour cs
    exact ⟨_, (hchecking.trans Next.checked.track).trans htrack⟩
  · obtain ⟨ds₁, hnotified⟩ := track_notify hcall hrecord hnotify cs
    obtain ⟨ds₂, htrack⟩ := hcloses.shifts.detour cs
    exact ⟨_, (hchecking.trans hnotified).trans htrack⟩

lemma detour_pass (s : ScopeId) : Leads Detour (E.pass s) := by
  have hscope : ∀ s, Leads Detour (E.visitScope s) := fun s =>
    (Leads.read _).bind fun ws => Routine.leads_inOrder (detour_visitWatcher hcall) ws
  exact (Leads.change fun t => (Tree.Shift.pass t s).detour).bind fun _ =>
    (Routine.leads_walk hscope _ s).bind fun _ => .pure _

lemma detour_body (procedure : κ) (s : ScopeId) : Leads Detour (E.call procedure (.body s)) := by
  intro t r u h cs
  obtain ⟨ds, htrack⟩ := (calls_of_call h).detour hcall cs
  exact ⟨_, (Next.body procedure s).track.trans htrack⟩

/-- Whatever a program asks for is a detour if the procedures of the host are. -/
lemma heeds_detour : E.Heeds Detour :=
  heeds_of_proceeds proceeds_detour (detour_drain hcall) (detour_pass hcall)
    (fun e name args s =>
      leads_deliver_of_hear proceeds_detour.toPermits.grants (detour_hear hcall e args) name s)
    (detour_body hcall)

end Engine

/-- Whatever a program asks for is a detour. -/
lemma Host.heeds_detour (H : Host κ σ) (limit : ℕ) : (H.engine limit).Heeds Detour := by
  have hinvoke := H.leads_invoke proceeds_detour.toPermits fun _ hcall => Engine.heeds_detour hcall
  exact Engine.heeds_detour (hinvoke limit)

/-- Every run is a track. -/
theorem Host.track_of_run {H : Host κ σ} {limit : ℕ} {p : Program κ σ α} {t u : Tree κ σ}
    {r : Except Error α} (h : H.run limit p t = some (r, u)) (cs : List WatcherId) :
    ∃ ds, Track ⟨cs, t⟩ ds ⟨cs, u⟩ :=
  Engine.leads_program proceeds_detour.toPermits (H.heeds_detour limit) p h cs

end DataBinding
