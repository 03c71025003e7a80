import DataBinding.Proofs.Episodes
import DataBinding.Proofs.Tidiness

/-!
# What is called of a scope that is gone

Once a scope is destroyed it lists no watchers and no listeners, so whatever begins afterwards does
not come to any.  But a destruction does not reach into what has begun already: the visit of the
scope's watchers, or the delivery of an event in it, goes through those that were listed when it
began.  So of a destroyed scope nothing is called but what a call in progress has still to come to
(`Host.due_of_destroyed`), and that is called indeed (`mourner_hears_on`).
-/

namespace DataBinding

open Compute (Leads runOn runOn_bind_cases)
open Scene (Next Story)
open DataBinding.Tree (Episode proceeds_episode)

variable {κ σ : Type}

/-! ## Parties -/

/-- A watcher or a listener. -/
inductive Party where
  | watcher (w : WatcherId)
  | listener (l : ListenerId)

namespace Tree

variable {t u : Tree κ σ} {s q : ScopeId} {x : Party}

/-- The party is registered in that scope, now or formerly. -/
def Hosts (t : Tree κ σ) (s : ScopeId) : Party → Prop
  | .watcher w => ∃ watcher, t.watcher? w = some watcher ∧ watcher.scope = s
  | .listener l => t.Houses s l

/-- The scope lists the party. -/
def Lists (t : Tree κ σ) (s : ScopeId) : Party → Prop
  | .watcher w => w ∈ (t.scope s).watchers
  | .listener l => l ∈ (t.scope s).listeners

/-- A party is one of a single scope. -/
lemma Hosts.unique (hs : t.Hosts s x) (hq : t.Hosts q x) : s = q := by
  cases x with
  | watcher w =>
    obtain ⟨watcher, hw, rfl⟩ := hs
    obtain ⟨watcher', hw', rfl⟩ := hq
    cases hw.symm.trans hw'
    rfl
  | listener l =>
    obtain ⟨listener, hl, rfl⟩ := hs
    obtain ⟨listener', hl', rfl⟩ := hq
    cases hl.symm.trans hl'
    rfl

lemma Hosts.of_later (hx : t.Hosts s x) (hlater : t.Later u) (htidies : t.Tidies u) :
    u.Hosts s x := by
  cases x with
  | watcher w =>
    obtain ⟨watcher, hw, rfl⟩ := hx
    obtain ⟨watcher', hw', hsucceeds⟩ := hlater.watcher w watcher hw
    exact ⟨watcher', hw', hsucceeds.scope⟩
  | listener l => exact htidies.houses hx

/-- A party that is listed is one of the scope that lists it. -/
lemma Lists.hosts (hx : t.Lists s x) (ht : t.Sound) (htidy : t.Tidy) : t.Hosts s x := by
  cases x with
  | watcher w =>
    obtain ⟨watcher, hw, hscope, -⟩ := ht.listed hx
    exact ⟨watcher, hw, hscope⟩
  | listener l => exact htidy.housed hx

/-- A scope that is gone lists no party. -/
lemma Tidy.not_lists (htidy : t.Tidy) (hgone : (t.scope s).life = .gone) : ¬ t.Lists s x := by
  obtain ⟨hwatchers, hlisteners⟩ := htidy.cleared s hgone
  cases x with
  | watcher w => simp [Lists, hwatchers]
  | listener l => simp [Lists, hlisteners]

/-- A scope that is gone stays so. -/
lemma Later.gone (h : t.Later u) (hs : s < t.scopes.size) (hgone : (t.scope s).life = .gone) :
    (u.scope s).life = .gone := by
  have hrank := (h.scope s hs).life
  rw [hgone] at hrank
  cases hlife : (u.scope s).life with
  | gone => rfl
  | alive | leaving =>
    rw [hlife] at hrank
    exact absurd hrank (by decide)

end Tree

/-- The parties that a call in progress has still to come to: the watchers that remain to be
visited, the one that is being checked, the listeners that remain to hear an event. -/
def Frame.parties : Frame κ → List Party
  | .visiting _ rest => rest.map .watcher
  | .checking w => [.watcher w]
  | .telling _ => []
  | .hearing _ _ rest => rest.map .listener
  | .working _ => []

/-- The party that something is done for: the procedure of a watcher computes what is watched, its
listener is told of a change, a listener hears an event. -/
def Deed.party? : Deed κ → Option Party
  | .watch w _ _ => some (.watcher w)
  | .tell τ => some (.watcher τ.id)
  | .hear l _ _ _ => some (.listener l)
  | .work .. => none
  | .body .. => none

/-- One of the calls in progress has still to come to the party. -/
def Due (frames : List (Frame κ)) (x : Party) : Prop := ∃ frame ∈ frames, x ∈ frame.parties

lemma due_cons {frame : Frame κ} {frames : List (Frame κ)} {x : Party} :
    Due (frame :: frames) x ↔ x ∈ frame.parties ∨ Due frames x := by
  simp [Due]

namespace Scene

variable {m m' : Scene κ σ} {ds : List (Deed κ)} {d : Deed κ} {x : Party}

/-- What is done for a party is done by a call that had still to come to it. -/
lemma Next.due_of_party (h : Next m ds m') (hd : d ∈ ds) (hx : d.party? = some x) :
    Due m.frames x := by
  cases h with
  | watch hw hwatch =>
    obtain rfl := List.mem_singleton.1 hd
    obtain rfl := Option.some.inj hx
    exact ⟨_, .head _, .head _⟩
  | tell =>
    obtain rfl := List.mem_singleton.1 hd
    obtain rfl := Option.some.inj hx
    exact ⟨_, .head _, .head _⟩
  | hear =>
    obtain rfl := List.mem_singleton.1 hd
    obtain rfl := Option.some.inj hx
    exact ⟨_, .head _, .head _⟩
  | work | body =>
    obtain rfl := List.mem_singleton.1 hd
    cases hx
  | _ => cases hd

/-- A call has to come to what it had to come to before, or it has begun with what a scope lists. -/
lemma Next.due_cases (h : Next m ds m') (hx : Due m'.frames x) :
    Due m.frames x ∨ ∃ q, m.tree.Lists q x := by
  cases h with
  | drift | watch | body => exact .inl hx
  | @visit frames t s =>
    rcases due_cons.1 hx with hx | hx
    · obtain ⟨w, hw, rfl⟩ := List.mem_map.1 hx
      exact .inr ⟨s, hw⟩
    · exact .inl hx
  | @deliver frames t e name s =>
    rcases due_cons.1 hx with hx | hx
    · obtain ⟨l, hl, rfl⟩ := List.mem_map.1 hx
      exact .inr ⟨s, (List.mem_filter.1 hl).1⟩
    · exact .inl hx
  | skip | miss | hear =>
    refine .inl (due_cons.2 ((due_cons.1 hx).imp_left fun hx => ?_))
    exact List.mem_cons_of_mem _ hx
  | check =>
    -- the watcher that is checked now was the first of those that remained
    refine .inl (due_cons.2 ?_)
    rcases due_cons.1 hx with hx | hx
    · obtain rfl := List.mem_singleton.1 hx
      exact .inl (.head _)
    · exact (due_cons.1 hx).imp_left fun hx => List.mem_cons_of_mem _ hx
  | tell =>
    rcases due_cons.1 hx with hx | hx
    · cases hx
    · exact .inl (due_cons.2 (.inr hx))
  | start =>
    rcases due_cons.1 hx with hx | hx
    · cases hx
    · exact .inl hx
  | work => exact .inl hx
  | checked | told | visited | heard | worked => exact .inl (due_cons.2 (.inr hx))

/-! ## After the destruction -/

/-- The party is one that those calls had to come to, or one of another scope. -/
def Spared (frames : List (Frame κ)) (s : ScopeId) (t : Tree κ σ) (x : Party) : Prop :=
  Due frames x ∨ ∃ q, q ≠ s ∧ t.Hosts q x

/-- The scope is gone, and all that the calls in progress have to come to is spared. -/
structure Bereft (frames : List (Frame κ)) (s : ScopeId) (m : Scene κ σ) : Prop where
  sound : m.tree.Sound
  tidy : m.tree.Tidy
  known : s < m.tree.scopes.size
  gone : (m.tree.scope s).life = .gone
  spared : ∀ x, Due m.frames x → Spared frames s m.tree x

variable {frames : List (Frame κ)} {s : ScopeId}

lemma Spared.of_next {t u : Tree κ σ} (hx : Spared frames s t x) (hlater : t.Later u)
    (htidies : t.Tidies u) : Spared frames s u x := by
  rcases hx with hx | ⟨q, hq, hhosts⟩
  · exact .inl hx
  · exact .inr ⟨q, hq, hhosts.of_later hlater htidies⟩

lemma Bereft.next (hm : Bereft frames s m) (h : Next m ds m') : Bereft frames s m' where
  sound := h.grows.sound hm.sound
  tidy := h.tidies.tidy hm.tidy
  known := hm.known.trans_le h.grows.later.scopes_le
  gone := h.grows.later.gone hm.known hm.gone
  spared x hx := by
    refine Spared.of_next ?_ h.grows.later h.tidies
    rcases h.due_cases hx with hx | ⟨q, hx⟩
    · exact hm.spared x hx
    · refine .inr ⟨q, ?_, hx.hosts hm.sound hm.tidy⟩
      rintro rfl
      exact hm.tidy.not_lists hm.gone hx

/-- In a story that begins when the scope is gone, what is done is done for parties that are
spared. -/
lemma Story.spared (h : Story m ds m') (hm : Bereft frames s m) :
    Bereft frames s m' ∧ ∀ d ∈ ds, ∀ x, d.party? = some x → Spared frames s m'.tree x := by
  induction h with
  | none => exact ⟨hm, fun d hd => by cases hd⟩
  | @more m' m'' ds ds' _ hnext ih =>
    obtain ⟨hm', hds⟩ := ih
    refine ⟨hm'.next hnext, fun d hd x hx => ?_⟩
    refine Spared.of_next ?_ hnext.grows.later hnext.tidies
    rcases List.mem_append.1 hd with hd | hd
    · exact hds d hd x hx
    · exact hm'.spared x (hnext.due_of_party hd hx)

end Scene

/-! ## Destructions -/

namespace Engine

variable {E : Engine κ σ} {t u : Tree κ σ} {s : ScopeId}

/-- A destruction that is not the second one begins, is announced, and ends. -/
lemma destroy_cases (halive : (t.scope s).life = .alive)
    (h : runOn (E.destroy s) t = some (.ok (), u)) :
    ∃ v, runOn (discard (E.broadcast s destroyEvent [])) (t.beginDestroy s) = some (.ok (), v) ∧
      u = v.tearDown s := by
  have hdestroyed : (t.scope s).isDestroyed = false := by simp [Scope.isDestroyed, halive]
  rw [destroy, Compute.runOn_read_bind, hdestroyed, if_neg Bool.false_ne_true,
    Compute.runOn_change_bind] at h
  rcases runOn_bind_cases h with ⟨e, -, h⟩ | ⟨_, v, h₁, h₂⟩
  · cases h
  · cases h₂
    exact ⟨v, h₁, rfl⟩

/-- The destruction of a scope leads to a tree in which it is gone. -/
lemma gone_of_destroy (hdeliver : ∀ e name args q, Leads Episode (E.deliver e name args q))
    (halive : (t.scope s).life = .alive) (h : runOn (E.destroy s) t = some (.ok (), u)) :
    s < u.scopes.size ∧ (u.scope s).life = .gone := by
  obtain ⟨v, hbroadcast, rfl⟩ := destroy_cases halive h
  have hknown : s < t.scopes.size := by
    by_contra hs
    rw [Tree.scope_of_size_le (not_lt.1 hs)] at halive
    cases halive
  have hpermits := (proceeds_episode (κ := κ) (σ := σ)).toPermits
  obtain ⟨ds, hstory⟩ := (leads_broadcast hdeliver hpermits s destroyEvent []).discard hbroadcast []
  have hv : s < v.scopes.size := by
    refine lt_of_lt_of_le ?_ hstory.grows.later.scopes_le
    simpa [Tree.beginDestroy] using hknown
  exact ⟨hv.trans_le (Tree.later_tearDown v s).scopes_le, Tree.life_tearDown hv⟩

end Engine

/-- After the destruction of a scope has returned, nothing is done for a watcher or a listener of
that scope, be it registered before or afterwards, but by calls that were in progress then and had
still to come to it: a visit of the scope's watchers, a check of one, the delivery of an event in
the scope. -/
theorem Host.due_of_destroyed (H : Host κ σ) {limit : ℕ} {store : Store σ} {compiler : Compiler}
    {config : Config} {timed : Bool} {ds ds' : List (Deed κ)} {frames : List (Frame κ)}
    {t u : Tree κ σ} {s : ScopeId} {m : Scene κ σ}
    (hbefore : Story ⟨[], .plant store compiler config timed⟩ ds ⟨frames, t⟩)
    (halive : (t.scope s).life = .alive)
    (hdestroy : runOn ((H.engine limit).destroy s) t = some (.ok (), u))
    (hafter : Story ⟨frames, u⟩ ds' m) :
    ∀ d ∈ ds', ∀ x, d.party? = some x → m.tree.Hosts s x → Due frames x := by
  intro d hd x hx hhosts
  have hdeliver := (H.heeds_episode limit).deliver
  obtain ⟨ds₁, hmeanwhile⟩ :=
    Engine.leads_destroy hdeliver proceeds_episode.toPermits.grants s hdestroy frames
  have hstory := hbefore.trans hmeanwhile
  obtain ⟨hknown, hgone⟩ := Engine.gone_of_destroy hdeliver halive hdestroy
  have hbereft : Scene.Bereft frames s ⟨frames, u⟩ :=
    { sound := hstory.grows.sound (Tree.sound_plant ..)
      tidy := hstory.tidies.tidy (Tree.tidy_plant ..)
      known := hknown
      gone := hgone
      spared := fun x hx => .inl hx }
  rcases (hafter.spared hbereft).2 d hd x hx with hdue | ⟨q, hq, hother⟩
  · exact hdue
  · exact absurd (hother.unique hhosts) hq

/-! ## A host that destroys a scope in the middle of a visit -/

/-- The procedures of a host with a listener that destroys its scope. -/
inductive Mourner where
  | source
  | leave
  | stay

/-- A host that keeps whether one of its listeners was called in a scope that was gone. -/
def mourner : Host Mourner Bool where
  library := ⟨fun _ _ _ => .endless, fun _ _ => .endless⟩
  report := fun _ host => host
  procedure
    | .leave, .changed s _ => do
      Program.request (.destroy s)
      return .undefined
    | .stay, .changed s _ => do
      if (← Program.look fun t => (t.scope s).life) = .gone then
        Program.compute (Compute.change ({ · with host := true }))
      return .undefined
    | _, _ => return .undefined

/-- Watches twice in a child of the root. -/
def mournerSetup : Program Mourner Bool Unit := do
  let s ← Program.request (.newChild rootId false rootId)
  discard <| Program.request (.watch s .source .stay false)
  discard <| Program.request (.watch s .source .leave false)

/-- One listener destroys its scope, and the other one is called in the scope that is gone. -/
theorem mourner_hears_on : ∃ t, mourner.run 9 mournerSetup
      (.plant ⟨.empty, false⟩ ⟨.empty, .empty⟩ {} false) = some (.ok (), t) ∧
    (t.scope 1).life = .alive ∧
    ∃ u, runOn ((mourner.engine 9).digest rootId) t = some (.ok (), u) ∧
      (u.scope 1).life = .gone ∧ u.store.host = true := by
  generalize hx : mourner.run 9 mournerSetup _ = x
  cbv at hx
  subst hx
  refine ⟨_, rfl, rfl, ?_⟩
  generalize hy : runOn _ _ = y
  cbv at hy
  subst hy
  exact ⟨_, rfl, rfl, rfl⟩

/-- The listener of the first watcher is told of a change. -/
def mournerTelling : Telling Mourner where
  id := 1
  watcher :=
    { scope := 1, kind := .procedure .source .leave, byValue := false,
      last := some (.leaf .undefined) }
  change := ⟨.undefined, .undefined⟩
  seen := ⟨#[], #[⟨.empty, none⟩, ⟨.empty, some 0⟩], #[]⟩
  told := ⟨#[], #[⟨.empty, none⟩, ⟨.empty, some 0⟩], #[]⟩

/-- What that host comes to, up to the destruction that this listener asks for. -/
lemma mourner_run : ∃ t, mourner.run 9 mournerSetup
      (.plant ⟨.empty, false⟩ ⟨.empty, .empty⟩ {} false) = some (.ok (), t) ∧
    (t.scope 1).watchers = [1, 0] ∧
    t.watcher? 1 = some { scope := 1, kind := .procedure .source .leave, byValue := false } ∧
    mournerTelling.seen = t.store.heap ∧
    ∃ v, ((t.note (.checked 1)).note (.called .source (.watch 1))).record 1 .undefined =
        some (some mournerTelling.change, v) ∧
      v.watcher? 1 = some mournerTelling.watcher ∧ mournerTelling.told = v.store.heap ∧
      (v.scope 1).life = .alive ∧
      ∃ u, runOn ((mourner.engine 9).destroy 1) ({ v with lastDirty := some 1 }.note
          (.called .leave (.changed 1 mournerTelling.change))) = some (.ok (), u) ∧
        u.watcher? 0 = some { scope := 1, kind := .procedure .source .stay, byValue := false } := by
  generalize hx : mourner.run 9 mournerSetup _ = x
  cbv at hx
  subst hx
  exact ⟨_, rfl, rfl, rfl, rfl, _, rfl, rfl, rfl, rfl, _, rfl, rfl⟩

/-- The visit goes on to the watcher that had remained when the scope was destroyed. -/
theorem mourner_due : ∃ (ds ds' : List (Deed Mourner)) (t u : Tree Mourner Bool)
    (m : Scene Mourner Bool) (d : Deed Mourner),
    Story ⟨[], .plant ⟨.empty, false⟩ ⟨.empty, .empty⟩ {} false⟩ ds
      ⟨[.telling 1, .visiting 1 [0]], t⟩ ∧
    (t.scope 1).life = .alive ∧
    runOn ((mourner.engine 9).destroy 1) t = some (.ok (), u) ∧
    Story ⟨[.telling 1, .visiting 1 [0]], u⟩ ds' m ∧
    d ∈ ds' ∧ d.party? = some (.watcher 0) ∧ m.tree.Hosts 1 (.watcher 0) ∧
    Due [.telling (κ := Mourner) 1, .visiting 1 [0]] (.watcher 0) := by
  obtain ⟨t, hsetup, hlisted, hleave, hseen, v, hrecord, hwatcher, htold, halive, u, hdestroy,
    hstay⟩ := mourner_run
  obtain ⟨ds, hstory⟩ := Host.story_of_run hsetup []
  have hvisit := hstory.trans (Next.visit 1).story
  rw [hlisted] at hvisit
  have hcheck := hvisit.trans (Next.check (by simp [Tree.isActive, hleave])).story
  have hwatch := hcheck.trans (Next.watch (t := t.note (.checked 1)) hleave rfl).story
  have htell := hwatch.trans (Next.tell (τ := mournerTelling) hrecord hwatcher hseen htold).story
  let watcher : Watcher Mourner :=
    { scope := 1, kind := .procedure .source .stay, byValue := false }
  have hrest : Story ⟨[.visiting 1 [0]], u⟩ []
      ⟨[.checking 0, .visiting 1 []], u.note (.checked 0)⟩ :=
    (Next.check (by simp [Tree.isActive, hstay])).story
  have hcalled := hrest.trans (Next.watch (t := u.note (.checked 0)) hstay rfl).story
  have htold : Story ⟨[.telling 1, .visiting 1 [0]], u⟩ [] ⟨[.visiting 1 [0]], u⟩ := Next.told.story
  have hafter := htold.trans hcalled
  let d : Deed Mourner := .watch 0 watcher .source
  refine ⟨_, _, _, u, _, d, htell, halive, hdestroy, hafter, .head _, rfl,
    ⟨watcher, hstay, rfl⟩, ?_⟩
  exact mourner.due_of_destroyed htell halive hdestroy hafter d (.head _) _ rfl
    ⟨watcher, hstay, rfl⟩

end DataBinding
