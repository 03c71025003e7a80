import DataBinding.Proofs.Moments

/-!
# The ledger of the queues

Tasks are queued and started all over a run: by digests on any scope, by applies, by deferred jobs,
by digests inside of tasks.  The dealings of a path list them in order.  On every path, what has
been queued on a queue is what has been started from it followed by what waits in it now
(`Moment.Path.ledger`), so no task is lost, none is started twice, and none is started before
another one that was queued earlier.

The numbers of the tasks count the queuings of all three queues (`Moment.Path.numbers`), so no two
tasks that are queued are the same.  The journal of the tree tells of the same dealings, with the
numbers of the tasks (`Moment.Path.dealings`).

A task that is started is performed (`Host.performs_of_started`): it was taken out of its queue, and
its work is done before the call that took it goes on.
-/

namespace DataBinding

variable {κ σ α : Type}

/-! ## Dealings -/

namespace Dealing

/-- The task that comes into a queue. -/
def queuedOn? (q : Queue) : Dealing κ → Option (Task κ)
  | .queued r task => if r = q then some task else none
  | .started _ _ => none

/-- The task that is started from a queue. -/
def startedFrom? (q : Queue) : Dealing κ → Option (Task κ)
  | .queued _ _ => none
  | .started r task => if r = q then some task else none

/-- The number of a task that comes into some queue. -/
def queuedNumber? : Dealing κ → Option ℕ
  | .queued _ task => some task.number
  | .started _ _ => none

/-- How the journal tells of a dealing. -/
def step : Dealing κ → Step κ
  | .queued q task => .queued q task.number
  | .started q task => .started q task.number

end Dealing

/-- The tasks that come into a queue, in order. -/
def queuedOn (q : Queue) (ds : List (Dealing κ)) : List (Task κ) :=
  ds.filterMap (Dealing.queuedOn? q)

/-- The tasks that are started from a queue, in order. -/
def startedFrom (q : Queue) (ds : List (Dealing κ)) : List (Task κ) :=
  ds.filterMap (Dealing.startedFrom? q)

/-- The numbers of the tasks that come into queues, in order. -/
def queuedNumbers (ds : List (Dealing κ)) : List ℕ := ds.filterMap Dealing.queuedNumber?

/-- Whether a step is a dealing with a task. -/
def Step.deals : Step κ → Bool
  | .queued _ _ | .started _ _ => true
  | _ => false

/-- A queue that gets a task is told by its tasks. -/
lemma Queues.queue_of_push_eq {qs : Queues κ} {q r : Queue} {s s' : ScopeId} {work work' : Work κ}
    (h : qs.push q s work = qs.push r s' work') : r = q := by
  by_contra hne
  have htasks := congrArg (Queues.tasks · q) h
  simp only [Queues.tasks_push_self, Queues.tasks_push_of_ne qs (Ne.symm hne)] at htasks
  simp at htasks

namespace Tree

variable {t u : Tree κ σ}

/-- What the journal tells of dealings with tasks, in order. -/
def dealings (t : Tree κ σ) : List (Step κ) := (t.journal.filter Step.deals).reverse

lemma dealings_of_journal (h : u.journal = t.journal) : u.dealings = t.dealings :=
  congrArg (fun journal => (List.filter Step.deals journal).reverse) h

lemma dealings_of_step {step : Step κ} (h : u.journal = step :: t.journal)
    (hstep : step.deals = false) : u.dealings = t.dealings := by
  rw [dealings, h, List.filter_cons_of_neg (by simp [hstep])]
  rfl

lemma dealings_of_dealing {step : Step κ} (h : u.journal = step :: t.journal)
    (hstep : step.deals = true) : u.dealings = t.dealings ++ [step] := by
  rw [dealings, h, List.filter_cons_of_pos hstep, List.reverse_cons]
  rfl

/-- A request queues a task and notes it, or does neither. -/
lemma Act.dealings (h : t.Act u) : u.queues = t.queues ∧ u.dealings = t.dealings ∨
    ∃ q s work, u.queues = t.queues.push q s work ∧
      u.dealings = t.dealings ++ [.queued q t.queues.next] := by
  cases h with
  | enqueue _ s work => exact .inr ⟨_, s, work, rfl, dealings_of_dealing rfl rfl⟩
  | queueAsync s work =>
    obtain ⟨deferral, h⟩ := queueAsync_eq t s work
    rw [h]
    exact .inr ⟨.async, s, work, rfl, dealings_of_dealing rfl rfl⟩
  | armApply =>
    obtain ⟨deferral, applyFlush, h⟩ := armApply_eq t
    rw [h]
    exact .inl ⟨rfl, rfl⟩
  | removeWatcher w =>
    exact .inl ⟨queues_removeWatcher t w, dealings_of_journal (journal_removeWatcher t w)⟩
  | removeListener l =>
    unfold Tree.removeListener
    split <;> exact .inl ⟨rfl, rfl⟩
  | called => exact .inl ⟨rfl, dealings_of_step rfl rfl⟩
  | reported => exact .inl ⟨rfl, dealings_of_step rfl rfl⟩
  | _ => exact .inl ⟨rfl, rfl⟩

lemma Change.dealings (h : t.Change u) : u.dealings = t.dealings := by
  cases h with
  | act h hqueues =>
    rcases h.dealings with ⟨-, hsame⟩ | ⟨q, s, work, hpush, -⟩
    · exact hsame
    · have hnext := congrArg Queues.next (hqueues.symm.trans hpush)
      exact absurd hnext (Nat.lt_succ_self _).ne
  | tick h =>
    rcases h.journal with h | ⟨job, h⟩
    · exact dealings_of_journal h
    · exact dealings_of_step h rfl
  | tearDown s => exact dealings_of_journal (journal_tearDown t s)
  | checked => exact dealings_of_step rfl rfl
  | pass => exact dealings_of_step rfl rfl
  | record h =>
    obtain ⟨_, _, rfl⟩ := eq_of_record h
    rfl
  | _ => rfl

/-- A task that is taken out of a queue is noted. -/
lemma dealings_of_dequeue? {q : Queue} {task : Task κ} (h : t.dequeue? q = some (task, u)) :
    u.dealings = t.dealings ++ [.started q task.number] ∧ u.queues.next = t.queues.next := by
  obtain ⟨_, rfl⟩ := eq_of_dequeue? h
  refine ⟨dealings_of_dealing rfl rfl, ?_⟩
  cases q <;> rfl

lemma dealings_begun (t : Tree κ σ) : t.begun.dealings = t.dealings :=
  dealings_of_step (Engine.journal_begun t) rfl

end Tree

/-! ## Moves -/

namespace Moment

variable {begins : Call κ σ → Tree κ σ → Prop} {m m' : Moment κ σ} {ds : List (Dealing κ)}

/-- On every move, what waits and what is queued is what is started and what waits then. -/
theorem Move.ledger (h : Move begins m ds m') (q : Queue) :
    m.tree.queues.tasks q ++ queuedOn q ds = startedFrom q ds ++ m'.tree.queues.tasks q := by
  have hnone : ∀ {t u : Tree κ σ}, u.queues = t.queues →
      t.queues.tasks q ++ queuedOn q [] = startedFrom q [] ++ u.queues.tasks q := by
    intro t u hqueues
    rw [hqueues]
    exact List.append_nil _
  cases h with
  | change h => exact hnone h.queues
  | @queue calls t u r s work _ hqueues =>
    by_cases hr : r = q
    · subst hr
      have hqueued : queuedOn r [.queued r (⟨t.queues.next, s, work⟩ : Task κ)] =
          [⟨t.queues.next, s, work⟩] := by simp [queuedOn, Dealing.queuedOn?]
      rw [hqueues, Queues.tasks_push_self, hqueued]
      rfl
    · have hqueued : queuedOn q [.queued r (⟨t.queues.next, s, work⟩ : Task κ)] = [] := by
        simp [queuedOn, Dealing.queuedOn?, hr]
      rw [hqueues, Queues.tasks_push_of_ne _ (Ne.symm hr), hqueued, List.append_nil]
      rfl
  | @start calls t u v r task h =>
    have hqueued : queuedOn q [.started r task] = [] := rfl
    rw [hqueued, List.append_nil]
    by_cases hr : r = q
    · subst hr
      have hstarted : startedFrom r [.started r task] = [task] := by
        simp [startedFrom, Dealing.startedFrom?]
      rw [hstarted]
      exact Tree.tasks_of_dequeue? h
    · have hstarted : startedFrom q [.started r task] = [] := by
        simp [startedFrom, Dealing.startedFrom?, hr]
      rw [hstarted]
      exact (Tree.tasks_of_dequeue?_of_ne h (Ne.symm hr)).symm
  | beginDigest => exact hnone (Engine.queues_begun _)
  | beginApply | endLoop | endBody => exact hnone rfl
  | finish | endDigest | endApply => exact hnone rfl

/-- Every move numbers the tasks that it queues by the count of the tree. -/
theorem Move.numbers (h : Move begins m ds m') :
    queuedNumbers ds = List.range' m.tree.queues.next (queuedNumbers ds).length ∧
    m'.tree.queues.next = m.tree.queues.next + (queuedNumbers ds).length := by
  cases h with
  | change h => exact ⟨rfl, congrArg Queues.next h.queues⟩
  | queue _ hqueues => exact ⟨rfl, congrArg Queues.next hqueues⟩
  | start h => exact ⟨rfl, (Tree.dealings_of_dequeue? h).2⟩
  | beginDigest => exact ⟨rfl, congrArg Queues.next (Engine.queues_begun _)⟩
  | _ => exact ⟨rfl, rfl⟩

/-- The journal tells of the dealings of every move. -/
theorem Move.dealings (h : Move begins m ds m') :
    m'.tree.dealings = m.tree.dealings ++ ds.map Dealing.step := by
  have hnone : ∀ {t u : Tree κ σ}, u.dealings = t.dealings →
      u.dealings = t.dealings ++ ([] : List (Dealing κ)).map Dealing.step :=
    fun h => h.trans (List.append_nil _).symm
  cases h with
  | change h => exact hnone h.dealings
  | @queue calls t u q s work h hqueues =>
    rcases h.dealings with ⟨hsame, -⟩ | ⟨r, s', work', hpush, hdealings⟩
    · have hnext := congrArg Queues.next (hsame.symm.trans hqueues)
      exact absurd hnext (Nat.lt_succ_self _).ne
    · rw [hdealings, Queues.queue_of_push_eq (hqueues.symm.trans hpush)]
      rfl
  | start h => exact (Tree.dealings_of_dequeue? h).1
  | beginDigest => exact hnone (Tree.dealings_begun _)
  | beginApply | endLoop | endBody => exact hnone (Tree.dealings_of_step rfl rfl)
  | finish | endDigest | endApply => exact hnone rfl

/-! ## Paths -/

/-- On every path, what waited and what was queued is what was started and what waits then. -/
theorem Path.ledger (h : Path begins m ds m') (q : Queue) :
    m.tree.queues.tasks q ++ queuedOn q ds = startedFrom q ds ++ m'.tree.queues.tasks q := by
  induction h with
  | refl => exact List.append_nil _
  | @more m' m'' ds ds' _ hmove ih =>
    have hqueued : queuedOn q (ds ++ ds') = queuedOn q ds ++ queuedOn q ds' := List.filterMap_append
    have hstarted : startedFrom q (ds ++ ds') = startedFrom q ds ++ startedFrom q ds' :=
      List.filterMap_append
    calc m.tree.queues.tasks q ++ queuedOn q (ds ++ ds')
        = startedFrom q ds ++ (m'.tree.queues.tasks q ++ queuedOn q ds') := by
          rw [hqueued, ← List.append_assoc, ih, List.append_assoc]
      _ = startedFrom q (ds ++ ds') ++ m''.tree.queues.tasks q := by
          rw [hmove.ledger, hstarted, List.append_assoc]

/-- Every path numbers the tasks that are queued on it by the count of the tree. -/
theorem Path.numbers (h : Path begins m ds m') :
    queuedNumbers ds = List.range' m.tree.queues.next (queuedNumbers ds).length ∧
    m'.tree.queues.next = m.tree.queues.next + (queuedNumbers ds).length := by
  induction h with
  | refl => exact ⟨rfl, rfl⟩
  | @more m' m'' ds ds' _ hmove ih =>
    obtain ⟨hnumbers, hnext⟩ := ih
    obtain ⟨hnumbers', hnext'⟩ := hmove.numbers
    have happend : queuedNumbers (ds ++ ds') = queuedNumbers ds ++ queuedNumbers ds' :=
      List.filterMap_append
    rw [happend, List.length_append]
    refine ⟨?_, by omega⟩
    rw [← List.range'_append_1, ← hnext, ← hnumbers, ← hnumbers']

/-- The journal tells of the dealings of every path. -/
theorem Path.dealings (h : Path begins m ds m') :
    m'.tree.dealings = m.tree.dealings ++ ds.map Dealing.step := by
  induction h with
  | refl => exact (List.append_nil _).symm
  | more _ hmove ih => rw [hmove.dealings, ih, List.map_append, List.append_assoc]

/-! ## Tasks at work -/

lemma Move.length_le (h : Move begins m ds m') : ds.length ≤ 1 := by
  cases h <;> simp

/-- A dealing on a path is that of the last move, or it comes before it. -/
lemma Move.split_cases (h : Move begins m ds m') {d : Dealing κ}
    {earlier before after : List (Dealing κ)} (hds : earlier ++ ds = before ++ d :: after) :
    (earlier = before ∧ ds = d :: after) ∨
      ∃ rest, earlier = before ++ d :: rest ∧ after = rest ++ ds := by
  rcases List.append_eq_append_iff.1 hds with ⟨front, hfront, hsplit⟩ | ⟨rest, hrest, hafter⟩
  · have hlength := h.length_le
    rw [hsplit, List.length_append, List.length_cons] at hlength
    obtain rfl : front = [] := List.length_eq_zero_iff.1 (by omega)
    exact .inl ⟨(hfront.trans (List.append_nil _)).symm, hsplit⟩
  · cases rest with
    | nil => exact .inl ⟨hrest.trans (List.append_nil _), hafter.symm⟩
    | cons first rest =>
      obtain ⟨rfl, rfl⟩ := List.cons.inj hafter
      exact .inr ⟨rest, hrest, rfl⟩

/-- A task that was started on the way is at work from there on. -/
theorem Path.exists_of_started (h : Path begins m ds m') {q : Queue} {task : Task κ}
    {before after : List (Dealing κ)} (hds : ds = before ++ .started q task :: after) :
    ∃ calls t u v, Path begins m before ⟨calls, t⟩ ∧ t.dequeue? q = some (task, u) ∧
      begins (.working q task v) u ∧ Path begins ⟨.working q task v :: calls, u⟩ after m' := by
  induction h generalizing after with
  | refl => simp at hds
  | @more n m' ds ds' hpath hmove ih =>
    rcases hmove.split_cases hds with ⟨rfl, rfl⟩ | ⟨rest, hrest, rfl⟩
    · cases hmove with
      | start hnext hbegins => exact ⟨_, _, _, _, hpath, hnext, hbegins, .refl _⟩
    · obtain ⟨calls, t, u, v, hto, hnext, hbegins, hfrom⟩ := ih hrest
      exact ⟨calls, t, u, v, hto, hnext, hbegins, hfrom.more hmove⟩

/-- A task that is at work comes to the end of its work before the calls below it go on. -/
theorem Path.finishes {q : Queue} {task : Task κ} {v : Tree κ σ} {calls : List (Call κ σ)}
    (h : Path begins m ds m') (hm : m.calls = .working q task v :: calls)
    (hdone : ∀ inner, m'.calls ≠ inner ++ .working q task v :: calls) :
    ∃ ds₁ ds₂, ds₁ ++ ds₂ = ds ∧ Path begins m ds₁ ⟨.working q task v :: calls, v⟩ ∧
      Path begins ⟨calls, v⟩ ds₂ m' := by
  induction h with
  | refl => exact absurd hm (hdone [])
  | @more n m' ds ds' hpath hmove ih =>
    by_cases hkept : ∃ inner, n.calls = inner ++ .working q task v :: calls
    · obtain ⟨inner, hinner⟩ := hkept
      rcases hmove.keeps hinner with ⟨inner', hinner'⟩ | hn
      · exact absurd hinner' (hdone inner')
      -- nothing takes the task away but the end of its work
      cases hmove with
      | change | queue => exact absurd hn (hdone [])
      | start | beginDigest | beginApply => exact absurd (congrArg (_ :: ·) hn) (hdone [_])
      | finish =>
        cases hn
        exact ⟨ds, [], rfl, hpath, .refl _⟩
      | endLoop | endDigest | endBody | endApply => cases hn
    · obtain ⟨ds₁, ds₂, rfl, hwork, hrest⟩ := ih fun inner hinner => hkept ⟨inner, hinner⟩
      exact ⟨ds₁, ds₂ ++ ds', (List.append_assoc ..).symm, hwork, hrest.more hmove⟩

end Moment

/-! ## Runs -/

open Compute (runOn)
open Moment (Path)

lemma sublist_queuedNumbers (q : Queue) (ds : List (Dealing κ)) :
    List.Sublist ((queuedOn q ds).map Task.number) (queuedNumbers ds) := by
  induction ds with
  | nil => exact .slnil
  | cons d ds ih =>
    cases d with
    | started r task => exact ih
    | queued r task =>
      have hnumbers : queuedNumbers (.queued r task :: ds) = task.number :: queuedNumbers ds := rfl
      rw [hnumbers]
      by_cases hr : r = q
      · have hqueued : queuedOn q (.queued r task :: ds) = task :: queuedOn q ds :=
          List.filterMap_cons_some (by rw [Dealing.queuedOn?, if_pos hr])
        rw [hqueued]
        exact ih.cons_cons task.number
      · have hqueued : queuedOn q (.queued r task :: ds) = queuedOn q ds :=
          List.filterMap_cons_none (by rw [Dealing.queuedOn?, if_neg hr])
        rw [hqueued]
        exact ih.cons task.number

/-- On the way from the one tree to the other the task was taken out of the queue, after the
dealings `before`, and was performed before the calls below it went on.  The dealings `after` are
those of its work and of all that came then. -/
def Host.Performs (H : Host κ σ) (t u : Tree κ σ) (q : Queue) (task : Task κ)
    (before after : List (Dealing κ)) : Prop :=
  ∃ limit calls x y z ds₁ ds₂, ds₁ ++ ds₂ = after ∧ Path H.Begins ⟨[], t⟩ before ⟨calls, x⟩ ∧
    x.dequeue? q = some (task, y) ∧
    runOn ((H.engine limit).contained ((H.engine limit).perform task.scope task.work)) y =
      some (.ok (), z) ∧
    Path H.Begins ⟨.working q task z :: calls, y⟩ ds₁ ⟨.working q task z :: calls, z⟩ ∧
    Path H.Begins ⟨calls, z⟩ ds₂ ⟨[], u⟩

/-- Every task that is started is performed. -/
theorem Host.performs_of_started {H : Host κ σ} {t u : Tree κ σ} {q : Queue} {task : Task κ}
    {before after : List (Dealing κ)}
    (h : Path H.Begins ⟨[], t⟩ (before ++ .started q task :: after) ⟨[], u⟩) :
    H.Performs t u q task before after := by
  obtain ⟨calls, x, y, z, hto, hnext, hbegins, hfrom⟩ := h.exists_of_started rfl
  obtain ⟨ds₁, ds₂, hsplit, hwork, hrest⟩ := hfrom.finishes rfl fun inner => by simp
  cases hbegins with
  | task hrun => exact ⟨_, calls, x, y, z, ds₁, ds₂, hsplit, hto, hnext, hrun, hwork, hrest⟩

/-- Every run is a path of calls of the host, with a moment for each step that it notes.  In every
moment of a path the tasks that were queued on a queue of the tree are those that were started from
it, in the same order, followed by those that wait in it.  All tasks of a queue are different, and
the journal tells of the same dealings.  To start a task is to take it out of the queue and to
perform it, before the call that took it goes on. -/
theorem Host.tasks_in_order (H : Host κ σ) (store : Store σ) (compiler : Compiler)
    (config : Config) (timed : Bool) :
    (∀ {α : Type} (limit : ℕ) (p : Program κ σ α) (r : Except Error α) (u : Tree κ σ),
      H.run limit p (.plant store compiler config timed) = some (r, u) →
      H.Spans [] (.plant store compiler config timed) u) ∧
    (∀ (begins : Call κ σ → Tree κ σ → Prop) (ds : List (Dealing κ)) (m : Moment κ σ),
      Path begins ⟨[], .plant store compiler config timed⟩ ds m →
      (∀ q, queuedOn q ds = startedFrom q ds ++ m.tree.queues.tasks q ∧
        ((queuedOn q ds).map Task.number).Pairwise (· < ·)) ∧
      m.tree.dealings = ds.map Dealing.step) ∧
    ∀ (u : Tree κ σ) (q : Queue) (task : Task κ) (before after : List (Dealing κ)),
      Path H.Begins ⟨[], .plant store compiler config timed⟩ (before ++ .started q task :: after)
        ⟨[], u⟩ →
      H.Performs (.plant store compiler config timed) u q task before after := by
  refine ⟨fun limit p r u h => spans_of_run h [],
    fun begins ds m hpath => ⟨fun q => ⟨?_, ?_⟩, hpath.dealings⟩,
    fun u q task before after hpath => performs_of_started hpath⟩
  · have hledger := hpath.ledger q
    cases q <;> exact hledger
  · have hnumbers : (queuedNumbers ds).Pairwise (· < ·) := by
      rw [hpath.numbers.1]
      exact List.pairwise_lt_range'
    exact hnumbers.sublist (sublist_queuedNumbers q ds)

/-- A run in which a task is started from each of two queues, one of them after the digest, and
performed. -/
theorem nester_dealings : ∃ u ds, nester.run 9 nesterSetup
      (.plant ⟨.empty, ()⟩ ⟨.empty, .empty⟩ {} false) = some (.ok (), u) ∧
    Path nester.Begins ⟨[], .plant ⟨.empty, ()⟩ ⟨.empty, .empty⟩ {} false⟩ ds ⟨[], u⟩ ∧
    ds.map Dealing.step = [.queued .async 0, .queued .postDigest 1, .started .async 0,
      .started .postDigest 1] ∧
    (∀ q, queuedOn q ds = startedFrom q ds ++ u.queues.tasks q) ∧
    ∃ (task : Task Nester) (limit : ℕ) (x y z : Tree Nester Unit),
      .started .postDigest task ∈ ds ∧ x.dequeue? .postDigest = some (task, y) ∧
      runOn ((nester.engine limit).contained
        ((nester.engine limit).perform task.scope task.work)) y = some (.ok (), z) := by
  obtain ⟨hspans, hmoments, hperforms⟩ :=
    nester.tasks_in_order ⟨.empty, ()⟩ ⟨.empty, .empty⟩ {} false
  obtain ⟨u, hrun, hjournal⟩ := nester_run
  obtain ⟨ds, hpath, -⟩ := hspans 9 nesterSetup _ u hrun
  obtain ⟨hledger, hdealings⟩ := hmoments _ ds _ hpath
  have hsteps : ds.map Dealing.step = [.queued .async 0, .queued .postDigest 1, .started .async 0,
      .started .postDigest 1] := by
    rw [← hdealings, Tree.dealings, ← List.filter_reverse, hjournal]
    rfl
  refine ⟨u, ds, hrun, hpath, hsteps, fun q => (hledger q).1, ?_⟩
  obtain ⟨d, hd, hstep⟩ : ∃ d ∈ ds, d.step = .started .postDigest 1 := by
    rw [← List.mem_map, hsteps]
    simp
  cases d with
  | queued => cases hstep
  | started q task =>
    obtain ⟨rfl, -⟩ := Step.started.inj hstep
    obtain ⟨before, after, rfl⟩ := List.append_of_mem hd
    obtain ⟨limit, _, x, y, z, _, _, -, -, hnext, hwork, -⟩ := hperforms u _ task before after hpath
    exact ⟨task, limit, x, y, z, hd, hnext, hwork⟩

end DataBinding
