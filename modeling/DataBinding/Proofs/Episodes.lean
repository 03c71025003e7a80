import DataBinding.Proofs.CallSites

/-!
# Runs are stories

Every run of a program goes from scene to scene (`Host.story_of_run`), whatever the procedures of
the host do: what they ask for is answered by the same engine that has called them.

An episode is a stretch of a run after which the calls that had not returned when it began are in
the middle of what they were in the middle of (`Tree.Episode`).
-/

namespace DataBinding

open Compute (Leads runOn runOn_bind_cases)
open Scene (Next Story)

variable {κ σ α : Type}

/-! ## Episodes -/

namespace Tree

/-- There is a story from the one tree to the other, whatever the calls that have not returned are
in the middle of. -/
def Episode (t u : Tree κ σ) : Prop := ∀ frames, ∃ ds, Story ⟨frames, t⟩ ds ⟨frames, u⟩

/-- The same while the last call is in the middle of something. -/
def EpisodeIn (frame : Frame κ) (t u : Tree κ σ) : Prop :=
  ∀ frames, ∃ ds, Story ⟨frame :: frames, t⟩ ds ⟨frame :: frames, u⟩

variable {t u v : Tree κ σ} {frame : Frame κ}

instance : IsPreorder (Tree κ σ) Episode where
  refl t frames := ⟨[], .none _⟩
  trans _ _ _ h₁ h₂ frames := by
    obtain ⟨ds₁, hstory₁⟩ := h₁ frames
    obtain ⟨ds₂, hstory₂⟩ := h₂ frames
    exact ⟨_, hstory₁.trans hstory₂⟩

lemma Episode.within (h : Episode t u) (frame : Frame κ) : EpisodeIn frame t u :=
  fun frames => h (frame :: frames)

instance : IsPreorder (Tree κ σ) (EpisodeIn frame) where
  refl t := (refl_of Episode t).within frame
  trans _ _ _ h₁ h₂ frames := by
    obtain ⟨ds₁, hstory₁⟩ := h₁ frames
    obtain ⟨ds₂, hstory₂⟩ := h₂ frames
    exact ⟨_, hstory₁.trans hstory₂⟩

lemma Drift.episode (h : t.Drift u) : Episode t u := fun _ => ⟨_, (Next.drift h).story⟩

lemma Shift.episode (h : t.Shift u) : Episode t u := by
  cases h with
  | edit h =>
    refine h.related (fun hact hcalls _ => (Drift.act hact hcalls).episode) fun t s work => ?_
    have hqueued : Episode t (t.enqueue .apply s work) :=
      (Drift.act (.enqueue t Queue.noConfusion s work) rfl).episode
    exact trans_of Episode hqueued (Drift.act (.armApply _) (calls_armApply _)).episode
  | tick h => exact (Drift.tick h).episode
  | beginDestroy h => exact (Drift.beginDestroy h).episode
  | tearDown s => exact (Drift.tearDown t s).episode
  | setKind hw hkind => exact (Drift.setKind hw hkind).episode
  | pass s => exact (Drift.pass t s).episode
  | enter h => exact (Drift.enter h).episode
  | leave phase => exact (Drift.leave t phase).episode
  | start => exact (Drift.start t).episode

lemma Shifts.episode (h : t.Shifts u) : Episode t u := h.related Shift.episode

lemma proceeds_episode : Proceeds (Episode (κ := κ) (σ := σ)) where
  edit h := (Shift.edit h).episode
  beginDestroy h := (Shift.beginDestroy h).episode
  tearDown {_ u s} h hu :=
    trans_of Episode (trans_of Episode (Shift.beginDestroy h).episode hu)
      (Shift.tearDown u s).episode
  tick h := (Shift.tick h).episode
  enter h := (Shift.enter h).episode
  leave := (Shift.leave _ _).episode
  start := (Shift.start _).episode

end Tree

open DataBinding.Tree (Episode EpisodeIn proceeds_episode)

namespace Engine

variable {E : Engine κ σ} {t u v : Tree κ σ} {frame : Frame κ}

variable (hcall : ∀ procedure how, Leads Episode (E.invoke procedure how))

include hcall

/-- What comes of a call once it is noted. -/
lemma Calls.episode {procedure : κ} {how : Invocation} (h : E.Calls procedure how t u) :
    Episode (t.note (.called procedure how)) u := by
  obtain ⟨r, v, hrun, hshifts⟩ := h
  exact trans_of Episode (hcall procedure how hrun) hshifts.episode

/-! ## Events -/

/-- A listener hears an event, or is missed. -/
lemma story_hear {e : EventId} {args : List Value} {l : ListenerId} {r : Except Error Unit}
    (h : runOn (E.hear e args l) t = some (r, u)) (s : ScopeId) (rest : List ListenerId)
    (frames : List (Frame κ)) :
    r = .ok () ∧ ∃ ds, Story ⟨.hearing e s (l :: rest) :: frames, t⟩ ds
      ⟨.hearing e s rest :: frames, u⟩ := by
  obtain ⟨hr, ⟨hinactive, rfl⟩ | ⟨listener, hl, hactive, hcalls⟩⟩ := hear_cases h
  · exact ⟨hr, _, (Next.miss hinactive).story⟩
  · obtain ⟨ds, hstory⟩ := hcalls.episode hcall (.hearing e s rest :: frames)
    exact ⟨hr, _, (Next.hear args hl hactive).story.trans hstory⟩

lemma story_hearAll {e : EventId} {args : List Value} {ls : List ListenerId} {r : Except Error Unit}
    (h : runOn (E.hearAll e args ls) t = some (r, u)) (s : ScopeId) (frames : List (Frame κ)) :
    ∃ ds, Story ⟨.hearing e s ls :: frames, t⟩ ds ⟨.hearing e s [] :: frames, u⟩ := by
  induction ls generalizing t with
  | nil =>
    cases h
    exact ⟨_, .none _⟩
  | cons l rest ih =>
    rcases runOn_bind_cases h with ⟨_, h₁, -⟩ | ⟨_, v, h₁, h₂⟩
    · cases (story_hear hcall h₁ s rest frames).1
    · obtain ⟨ds₁, hstory₁⟩ := (story_hear hcall h₁ s rest frames).2
      obtain ⟨ds₂, hstory₂⟩ := ih h₂
      exact ⟨_, hstory₁.trans hstory₂⟩

/-- The delivery of an event in a scope is an episode. -/
lemma episode_deliver (e : EventId) (name : String) (args : List Value) (s : ScopeId) :
    Leads Episode (E.deliver e name args s) := by
  intro t r u h frames
  rw [deliver, Compute.runOn_change_bind, Compute.runOn_read_bind] at h
  obtain ⟨ds, hstory⟩ := story_hearAll hcall h s frames
  exact ⟨_, ((Next.deliver e name s).story.trans hstory).trans Next.heard.story⟩

/-! ## Tasks -/

/-- A task that is run calls a procedure at most. -/
lemma episodeIn_run (task : Task κ) :
    Leads (EpisodeIn (.working task)) (E.contained (E.perform task.scope task.work)) := by
  intro t r u h
  rcases run_cases h with hshifts | ⟨v, procedure, how, hshifts, hcalls, hcalled⟩
  · exact hshifts.episode.within _
  · refine trans_of (EpisodeIn (.working task)) (hshifts.episode.within _) fun frames => ?_
    obtain ⟨ds, hstory⟩ := hcalled.episode hcall (.working task :: frames)
    exact ⟨_, (Next.work hcalls).story.trans hstory⟩

lemma episode_drain (q : Queue) : Leads Episode (E.drain q) := by
  refine leads_drain_of_task fun {t task u r v} hnext hrun frames => ?_
  obtain ⟨ds, hstory⟩ := episodeIn_run hcall task hrun frames
  exact ⟨_, ((Next.start hnext).story.trans hstory).trans Next.worked.story⟩

/-! ## Watchers -/

/-- While a watcher is checked, the procedure that computes what is watched is called at most. -/
lemma episodeIn_observe {w : WatcherId} {watcher : Watcher κ} {r : Except Error Value}
    (hw : t.watcher? w = some watcher)
    (h : runOn (E.observe watcher.scope w watcher.kind) t = some (r, u)) :
    EpisodeIn (.checking w) t u := by
  rcases observe_cases hw h with hshifts | ⟨procedure, hwatch, hcalled⟩
  · exact hshifts.episode.within _
  · intro frames
    obtain ⟨ds, hstory⟩ := hcalled.episode hcall (.checking w :: frames)
    exact ⟨_, (Next.watch hw hwatch).story.trans hstory⟩

/-- What a watcher does about a change, once the host is told. -/
lemma episode_notify {τ : Telling κ} {r : Except Error Unit}
    (hw : t.watcher? τ.id = some τ.watcher) (htold : τ.told = t.store.heap)
    (h : runOn (E.notify τ.id τ.change) t = some (r, u)) :
    Episode ((τ.prepared t).noteCall τ.call?) u := by
  rcases notify_cases hw htold h with ⟨procedure, how, hcalls, hcalled⟩ | ⟨g, hgroup, hhanded⟩
  · rw [hcalls]
    exact hcalled.episode hcall
  · obtain ⟨hnone, hprepared⟩ := τ.call?_of_member hgroup
    rw [hnone, hprepared]
    rcases hhanded with hshifts | ⟨v, hshifts, rfl⟩
    · exact hshifts.episode
    · refine trans_of Episode hshifts.episode ?_
      exact (Tree.Drift.act (.queueAsync v _ _) (v.calls_queueAsync _ _)).episode

/-- A watcher is visited: it is skipped, or it is checked and perhaps told of a change. -/
lemma story_visitWatcher {w : WatcherId} {r : Except Error Findings}
    (h : runOn (E.visitWatcher w) t = some (r, u)) (s : ScopeId) (rest : List WatcherId)
    (frames : List (Frame κ)) :
    ∃ ds, Story ⟨.visiting s (w :: rest) :: frames, t⟩ ds ⟨.visiting s rest :: frames, u⟩ := by
  rcases visit_parts h with ⟨hinactive, rfl⟩ | ⟨hactive, watcher, r₁, v, hw, hobserve, hrest⟩
  · exact ⟨_, (Next.skip hinactive).story⟩
  have hbegin : Story ⟨.visiting s (w :: rest) :: frames, t⟩ []
      ⟨.checking w :: .visiting s rest :: frames, t.note (.checked w)⟩ := (Next.check hactive).story
  obtain ⟨ds, hobserved⟩ :=
    episodeIn_observe hcall (t := t.note (.checked w)) hw hobserve (.visiting s rest :: frames)
  have hchecking := hbegin.trans hobserved
  rcases hrest with hcloses | ⟨τ, v₁, v₂, r₂, rfl, hrecord, hnotify, hcloses⟩
  · obtain ⟨ds', hend⟩ := hcloses.shifts.episode (.visiting s rest :: frames)
    exact ⟨_, (hchecking.trans Next.checked.story).trans hend⟩
  · obtain ⟨new, hnew⟩ := hrecord.record
    have htell : Story ⟨.checking τ.id :: .visiting s rest :: frames, v⟩ [.tell τ]
        ⟨.telling τ.id :: .visiting s rest :: frames,
          (τ.prepared { v₁ with lastDirty := some τ.id }).noteCall τ.call?⟩ :=
      (Next.tell hnew hrecord.watcher hrecord.seen hrecord.told).story
    obtain ⟨ds₁, hnotified⟩ := episode_notify hcall hrecord.watcher_marked hrecord.told hnotify
      (.telling τ.id :: .visiting s rest :: frames)
    have htold := ((hchecking.trans htell).trans hnotified).trans Next.told.story
    obtain ⟨ds₂, hend⟩ := hcloses.shifts.episode (.visiting s rest :: frames)
    exact ⟨_, htold.trans hend⟩

lemma story_visitAll {ws : List WatcherId} {r : Except Error Findings}
    (h : runOn (Routine.inOrder E.visitWatcher ws) t = some (r, u)) (s : ScopeId)
    (frames : List (Frame κ)) :
    ∃ ds rest, Story ⟨.visiting s ws :: frames, t⟩ ds ⟨.visiting s rest :: frames, u⟩ := by
  induction ws generalizing t r with
  | nil =>
    cases h
    exact ⟨_, [], .none _⟩
  | cons w ws ih =>
    rcases runOn_bind_cases h with ⟨_, h₁, -⟩ | ⟨a, v, h₁, h₂⟩
    · obtain ⟨ds, hstory⟩ := story_visitWatcher hcall h₁ s ws frames
      exact ⟨ds, ws, hstory⟩
    · obtain ⟨ds, hstory⟩ := story_visitWatcher hcall h₁ s ws frames
      by_cases hended : a.ended = true
      · rw [if_pos hended] at h₂
        cases h₂
        exact ⟨ds, ws, hstory⟩
      · rw [if_neg hended] at h₂
        have hrest : ∃ r, runOn (Routine.inOrder E.visitWatcher ws) v = some (r, u) := by
          rcases runOn_bind_cases h₂ with ⟨e, h₃, -⟩ | ⟨b, v', h₃, h₄⟩
          · exact ⟨_, h₃⟩
          · cases h₄
            exact ⟨_, h₃⟩
        obtain ⟨r', hrest⟩ := hrest
        obtain ⟨ds', rest, hstory'⟩ := ih hrest
        exact ⟨_, rest, hstory.trans hstory'⟩

lemma episode_visitScope (s : ScopeId) : Leads Episode (E.visitScope s) := by
  intro t r u h frames
  rw [visitScope, Compute.runOn_read_bind] at h
  obtain ⟨ds, rest, hstory⟩ := story_visitAll hcall h s frames
  exact ⟨_, ((Next.visit s).story.trans hstory).trans Next.visited.story⟩

lemma episode_pass (s : ScopeId) : Leads Episode (E.pass s) :=
  (Leads.change fun t => (Tree.Drift.pass t s).episode).bind fun _ =>
    (Routine.leads_walk (episode_visitScope hcall) _ s).bind fun _ => .pure _

/-! ## Runs -/

lemma episode_body (procedure : κ) (s : ScopeId) :
    Leads Episode (E.call procedure (.body s)) := by
  intro t r u h frames
  obtain ⟨ds, hstory⟩ := hcall procedure (.body s) h frames
  exact ⟨_, (Next.body procedure s).story.trans hstory⟩

/-- Whatever a program asks for is an episode if the procedures of the host are. -/
lemma heeds_episode : E.Heeds Episode :=
  heeds_of_proceeds proceeds_episode (episode_drain hcall) (episode_pass hcall)
    (episode_deliver hcall) (episode_body hcall)

end Engine

/-- Whatever a program asks for is an episode. -/
lemma Host.heeds_episode (H : Host κ σ) (limit : ℕ) : (H.engine limit).Heeds Episode := by
  have hinvoke := H.leads_invoke proceeds_episode.toPermits
    fun _ hcall => Engine.heeds_episode hcall
  exact Engine.heeds_episode (hinvoke limit)

/-- Every run is a story. -/
theorem Host.story_of_run {H : Host κ σ} {limit : ℕ} {p : Program κ σ α} {t u : Tree κ σ}
    {r : Except Error α} (h : H.run limit p t = some (r, u)) (frames : List (Frame κ)) :
    ∃ ds, Story ⟨frames, t⟩ ds ⟨frames, u⟩ :=
  Engine.leads_program proceeds_episode.toPermits (H.heeds_episode limit) p h frames

end DataBinding
