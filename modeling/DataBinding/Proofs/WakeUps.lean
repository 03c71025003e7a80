import DataBinding.Proofs.Endings
import DataBinding.Proofs.Jobs

/-!
# Wake-ups

A task for the next pass that is queued while the tree is idle, as the first of its queue, defers a
digest of the root.  So whenever the tree is idle and tasks wait for a pass, a deferred digest waits
too, unless these tasks have been left behind: the first of them was queued before a digest gave up,
it waited when that digest did, and no digest has ended since (`Host.LeftBehind`,
`Host.awake_of_run`).

Tasks that are left behind wait for a digest that somebody asks for.  Nothing wakes the tree up for
them, and nothing does for the tasks that are queued behind them, since the queue is not empty then
(`straggler_sleeps`).

That the tree is awake while it rests is kept by everything that happens while no phase is active
(`Host.Rests`).  Inside of a phase it may fail; but a phase ends in a digest, and the end of the
loop of a digest brings it about again, whatever happened before (`Host.resting_of_digest`).
-/

namespace DataBinding

open Compute (Leads runOn)

variable {κ σ α : Type}

/-! ## Order -/

namespace Tree

variable {t u : Tree κ σ}

/-- The deferred jobs are filed, and every task that waits for a pass is noted as queued. -/
structure Orderly (t : Tree κ σ) : Prop where
  filed : t.deferral.Filed
  noted : ∀ task ∈ t.queues.async, .queued .async task.number ∈ t.journal

/-- A tree that was orderly is so still. -/
def Orders (t u : Tree κ σ) : Prop := t.Orderly → u.Orderly

lemma orderly_plant (store : Store σ) (compiler : Compiler) (config : Config) (timed : Bool) :
    Orderly (.plant store compiler config timed : Tree κ σ) where
  filed := ⟨List.Pairwise.nil, fun _ hjob => absurd hjob List.not_mem_nil⟩
  noted _ htask := absurd htask List.not_mem_nil

lemma Orders.of_subset (hfiled : t.deferral.Filed → u.deferral.Filed)
    (hasync : u.queues.async ⊆ t.queues.async) (hjournal : t.journal ⊆ u.journal) : Orders t u :=
  fun ht => ⟨hfiled ht.filed, fun task htask => hjournal (ht.noted task (hasync htask))⟩

lemma Orders.of_same (hdeferral : u.deferral = t.deferral)
    (hasync : u.queues.async = t.queues.async) (hjournal : t.journal ⊆ u.journal) : Orders t u :=
  .of_subset (fun h => hdeferral ▸ h) (List.Perm.of_eq hasync).subset hjournal

instance : IsPreorder (Tree κ σ) Orders where
  refl _ := id
  trans _ _ _ h₁ h₂ h := h₂ (h₁ h)

/-- A request queues a task for the next pass, or leaves their queue as it is. -/
lemma Act.async (h : t.Act u) :
    u.queues.async = t.queues.async ∨ ∃ s work, u = t.queueAsync s work := by
  cases h with
  | queueAsync s work => exact .inr ⟨s, work, rfl⟩
  | @enqueue q hq s work => exact .inl (tasks_enqueue_of_ne t hq.symm s work)
  | armApply =>
    obtain ⟨deferral, applyFlush, h⟩ := armApply_eq t
    rw [h]
    exact .inl rfl
  | removeWatcher w => exact .inl (congrArg Queues.async (queues_removeWatcher t w))
  | removeListener l =>
    unfold Tree.removeListener
    split <;> exact .inl rfl
  | _ => exact .inl rfl

lemma Act.subset_journal (h : t.Act u) : t.journal ⊆ u.journal := by
  rcases h.journal with h | ⟨step, -, h⟩
  · exact (List.Perm.of_eq h.symm).subset
  · exact h ▸ List.subset_cons_self step t.journal

lemma Act.orders (h : t.Act u) : Orders t u := by
  have hfiled : t.deferral.Filed → u.deferral.Filed := by
    rcases h.deferral with h | ⟨delay, kind, h⟩
    · exact fun ht => h ▸ ht
    · exact fun ht => h ▸ ht.defer delay kind
  rcases h.async with hasync | ⟨s, work, rfl⟩
  · exact .of_subset hfiled (List.Perm.of_eq hasync).subset h.subset_journal
  · refine fun ht => ⟨hfiled ht.filed, fun task htask => ?_⟩
    obtain ⟨deferral, heq⟩ := queueAsync_eq t s work
    rw [heq] at htask ⊢
    rcases List.mem_append.1 htask with htask | htask
    · exact .tail _ (ht.noted task htask)
    · rw [List.mem_singleton.1 htask]
      exact .head _

lemma Tick.subset_journal (h : t.Tick u) : t.journal ⊆ u.journal := by
  rcases h.journal with h | ⟨job, h⟩
  · exact (List.Perm.of_eq h.symm).subset
  · exact h ▸ List.subset_cons_self _ t.journal

lemma orders_of_dequeue? {q : Queue} {task : Task κ} (h : t.dequeue? q = some (task, u)) :
    Orders t u := by
  have hasync : u.queues.async ⊆ t.queues.async := by
    by_cases hq : q = .async
    · subst hq
      have htasks : t.queues.async = task :: u.queues.async := tasks_of_dequeue? h
      exact htasks ▸ List.subset_cons_self task _
    · exact (List.Perm.of_eq (tasks_of_dequeue?_of_ne h (Ne.symm hq))).subset
  obtain ⟨_, rfl⟩ := eq_of_dequeue? h
  exact .of_subset id hasync (List.subset_cons_self _ _)

lemma orders_cancelApply (t : Tree κ σ) : Orders t t.cancelApply := by
  unfold cancelApply
  split
  · exact .of_subset (fun ht => ht.cancel _) (List.Subset.refl _) (List.Subset.refl _)
  · exact refl_of Orders t

lemma digests_orders : Digests (Orders (κ := κ) (σ := σ)) where
  toAdmits := .of_changes Act.orders (fun _ _ => .of_same rfl rfl (List.Subset.refl _))
    fun t s => .of_same (deferral_tearDown t s) (congrArg Queues.async (queues_tearDown t s))
      (List.Perm.of_eq (journal_tearDown t s).symm).subset
  tick h := .of_subset h.filed (List.Perm.of_eq (congrArg Queues.async h.queues)).subset
    h.subset_journal
  checked := .of_same rfl rfl (List.subset_cons_self _ _)
  setKind _ _ := .of_same rfl rfl (List.Subset.refl _)
  record h := by
    obtain ⟨_, _, rfl⟩ := eq_of_record h
    exact .of_same rfl rfl (List.Subset.refl _)
  dirty := .of_same rfl rfl (List.Subset.refl _)
  pass := .of_same rfl rfl (List.subset_cons_self _ _)
  dequeue := orders_of_dequeue?
  enter h := by
    obtain rfl := eq_of_enter h
    exact .of_same rfl rfl (List.subset_cons_self _ _)
  leave := .of_same rfl rfl (List.subset_cons_self _ _)
  start {t} := by
    have hmark : Orders t { t with lastDirty := none } := .of_same rfl rfl (List.Subset.refl _)
    exact trans_of Orders hmark (orders_cancelApply _)

end Tree

/-! ## Trees that are awake -/

namespace Tree

variable {t u v : Tree κ σ}

/-- A deferred digest waits. -/
def DigestWaits (t : Tree κ σ) : Prop := ∃ job ∈ t.deferral.jobs, job.kind = .digest

lemma not_digestWaits (h : t.deferral.jobs = []) : ¬ t.DigestWaits := by
  rintro ⟨job, hjob, -⟩
  rw [h] at hjob
  cases hjob

/-- The journal has grown, and no digest has come to the end of its loop. -/
def Undigested (t u : Tree κ σ) : Prop :=
  ∃ steps, u.journal = steps ++ t.journal ∧ .left .digest ∉ steps

lemma Undigested.of_journal (h : u.journal = t.journal) : Undigested t u :=
  ⟨[], h, List.not_mem_nil⟩

lemma Undigested.of_step {step : Step κ} (h : u.journal = step :: t.journal)
    (hstep : step ≠ .left .digest) : Undigested t u :=
  ⟨[step], h, fun hmem => hstep (List.mem_singleton.1 hmem).symm⟩

lemma Undigested.trans (h₁ : Undigested t u) (h₂ : Undigested u v) : Undigested t v := by
  obtain ⟨steps₁, heq₁, hnone₁⟩ := h₁
  obtain ⟨steps₂, heq₂, hnone₂⟩ := h₂
  refine ⟨steps₂ ++ steps₁, by rw [heq₂, heq₁, List.append_assoc], fun hmem => ?_⟩
  exact (List.mem_append.1 hmem).elim hnone₂ hnone₁

lemma Undigested.subset (h : Undigested t u) : t.journal ⊆ u.journal := by
  obtain ⟨steps, h, -⟩ := h
  exact h ▸ List.subset_append_right steps t.journal

lemma Act.undigested (h : t.Act u) : Undigested t u := by
  rcases h.journal with h | ⟨step, hstep, h⟩
  · exact .of_journal h
  · refine .of_step h fun heq => ?_
    rw [heq] at hstep
    cases hstep

end Tree

namespace Host

variable (H : Host κ σ) {t u : Tree κ σ}

/-- The first task that waits for a pass had been queued and waited already when a digest gave up,
and no digest has come to the end of its loop since. -/
def LeftBehind (t : Tree κ σ) : Prop :=
  ∃ s v w ttl task, H.Ends (·.loop s) v (.ok (false, ttl)) w ∧ task ∈ w.queues.async ∧
    .queued .async task.number ∈ w.journal ∧ t.queues.async.head? = some task ∧
    (w.leave .digest).Undigested t

/-- No task waits for a pass, or a deferred digest waits too, or the tasks were left behind. -/
def Awake (t : Tree κ σ) : Prop :=
  t.queues.async = [] ∨ t.DigestWaits ∨ H.LeftBehind t

/-- The tree is idle and awake. -/
structure Resting (t : Tree κ σ) : Prop where
  idle : t.phase = none
  orderly : t.Orderly
  awake : H.Awake t

/-- A tree that rested rests again. -/
structure Rests (t u : Tree κ σ) : Prop where
  orders : t.Orders u
  resting : H.Resting t → H.Resting u

instance : IsPreorder (Tree κ σ) H.Rests where
  refl t := ⟨refl_of Tree.Orders t, id⟩
  trans _ _ _ h₁ h₂ := ⟨trans_of Tree.Orders h₁.orders h₂.orders, h₂.resting ∘ h₁.resting⟩

variable {H}

lemma LeftBehind.mono (h : H.LeftBehind t) (hasync : t.queues.async.head? = u.queues.async.head?)
    (hjournal : t.Undigested u) : H.LeftBehind u := by
  obtain ⟨s, v, w, ttl, task, hloop, htask, hnoted, hhead, hquiet⟩ := h
  exact ⟨s, v, w, ttl, task, hloop, htask, hnoted, hasync ▸ hhead, hquiet.trans hjournal⟩

lemma Awake.mono (h : H.Awake t) (hasync : u.queues.async = t.queues.async)
    (hjobs : t.DigestWaits → u.DigestWaits) (hjournal : t.Undigested u) : H.Awake u := by
  rcases h with hempty | hwaits | hleft
  · exact .inl (hasync.trans hempty)
  · exact .inr (.inl (hjobs hwaits))
  · exact .inr (.inr (hleft.mono (congrArg List.head? hasync.symm) hjournal))

/-! ## Requests -/

/-- A task that is queued on an idle tree wakes it up. -/
lemma Awake.queueAsync (h : H.Awake t) (hidle : t.phase = none) (s : ScopeId) (work : Work κ) :
    H.Awake (t.queueAsync s work) := by
  have hjournal := (Tree.Act.queueAsync t s work).undigested
  cases hasync : t.queues.async with
  | nil =>
    refine .inr (.inl ?_)
    unfold Tree.queueAsync
    rw [hidle, hasync]
    exact ⟨_, List.mem_append_right _ (.head _), rfl⟩
  | cons task rest =>
    -- the queue was not empty: no job is deferred, and the first task is still the first
    have hsame : t.queueAsync s work = t.enqueue .async s work := by
      unfold Tree.queueAsync
      rw [hasync, List.isEmpty_cons, Bool.and_false, if_neg Bool.false_ne_true]
    have hhead : t.queues.async.head? = (t.queueAsync s work).queues.async.head? := by
      have hqueue : (t.queueAsync s work).queues.async =
          t.queues.async ++ [⟨t.queues.next, s, work⟩] := by rw [hsame]; rfl
      rw [hqueue, hasync]
      rfl
    rcases h with hempty | hwaits | hleft
    · cases hasync.symm.trans hempty
    · exact .inr (.inl (hsame ▸ hwaits))
    · exact .inr (.inr (hleft.mono hhead hjournal))

lemma rests_of_act (h : t.Act u) : H.Rests t u := by
  refine ⟨h.orders, fun ht => ⟨h.phase.trans ht.idle, ?_, ?_⟩⟩
  · exact h.orders ht.orderly
  · rcases h.async with hasync | ⟨s, work, rfl⟩
    · refine ht.awake.mono hasync (fun hwaits => ?_) h.undigested
      obtain ⟨job, hjob, hkind⟩ := hwaits
      rcases h.deferral with heq | ⟨delay, kind, heq⟩
      · exact ⟨job, heq ▸ hjob, hkind⟩
      · exact ⟨job, heq ▸ List.mem_append_left _ hjob, hkind⟩
    · exact ht.awake.queueAsync ht.idle s work

/-- A change that leaves the phase, the queue and the jobs as they are. -/
lemma rests_of_same (hphase : u.phase = t.phase) (hasync : u.queues.async = t.queues.async)
    (hdeferral : u.deferral = t.deferral) (hjournal : t.Undigested u) : H.Rests t u := by
  have horders : t.Orders u := .of_same hdeferral hasync hjournal.subset
  refine ⟨horders, fun ht => ⟨hphase.trans ht.idle, horders ht.orderly, ?_⟩⟩
  exact ht.awake.mono hasync (fun hwaits => by rwa [Tree.DigestWaits, hdeferral]) hjournal

lemma admits_rests : Allows H.Rests := by
  refine Admits.allows (R := H.Rests) (.of_changes rests_of_act (fun t s => ?_) fun t s => ?_)
  · exact rests_of_same rfl rfl rfl (.of_journal rfl)
  · exact rests_of_same (Tree.phase_tearDown t s)
      (congrArg Queues.async (Tree.queues_tearDown t s)) (Tree.deferral_tearDown t s)
      (.of_journal (Tree.journal_tearDown t s))

lemma rests_of_dequeue? {q : Queue} {task : Task κ} (hq : q ≠ .async)
    (h : t.dequeue? q = some (task, u)) : H.Rests t u := by
  have hasync : u.queues.async = t.queues.async := Tree.tasks_of_dequeue?_of_ne h hq.symm
  obtain ⟨_, rfl⟩ := Tree.eq_of_dequeue? h
  exact rests_of_same rfl hasync rfl (.of_step rfl fun heq => by cases heq)

/-! ## Digests -/

section Engine

variable {limit : ℕ}
  (hcall : ∀ procedure how, Leads H.Rests ((H.engine limit).invoke procedure how))

include hcall

/-- After a digest the tree rests, whatever was the case before: no task waits for a pass at the end
of its loop if it settled, and those that do are left behind if it gave up. -/
theorem resting_of_digest {s : ScopeId} {r : Except Error Unit} (hidle : t.phase = none)
    (horderly : t.Orderly) (h : runOn ((H.engine limit).digest s) t = some (r, u)) :
    H.Resting u := by
  have hinvoke := (H.governed limit).invoke Tree.digests_orders
  have hdrains := Engine.leads_drain Tree.digests_orders.toDrains hinvoke
  obtain ⟨settled, v, w, hdrain, hpasses, hend⟩ := Engine.runOn_digest_cases hidle h
  have hbegun : t.Orders t.begun :=
    trans_of Tree.Orders (Tree.digests_orders.enter (Tree.enter_of_idle hidle .digest))
      Tree.digests_orders.start
  have hw : w.Orderly := Engine.leads_passes (hdrains .async)
    (Engine.leads_pass Tree.digests_orders.toPasses hinvoke s) _ hpasses
    (hdrains .apply hdrain (hbegun horderly))
  have hleft : (w.leave .digest).Orderly := Tree.digests_orders.leave hw
  rcases hend with ⟨rfl, -, hpost⟩ | ⟨rfl, -, rfl⟩
  · obtain ⟨-, -, -, -, -, hempty⟩ := Engine.rounds_of_settled hpasses
    have hrests := Engine.leads_drain_of_dequeue admits_rests
      (fun h => rests_of_dequeue? (H := H) Queue.noConfusion h) hcall hpost
    exact hrests.resting ⟨rfl, hleft, .inl hempty⟩
  · refine ⟨rfl, hleft, ?_⟩
    cases hasync : w.queues.async with
    | nil => exact .inl hasync
    | cons task rest =>
      have hloop : H.Ends (·.loop s) t (.ok (false, v.config.digestTtl)) w :=
        ⟨limit, Engine.runOn_loop hidle hdrain hpasses⟩
      have htask : task ∈ w.queues.async := hasync ▸ .head _
      have hhead : w.queues.async.head? = some task := congrArg List.head? hasync
      exact .inr (.inr ⟨s, t, w, _, task, hloop, htask, hw.noted task htask, hhead,
        .of_journal rfl⟩)

lemma rests_digest (s : ScopeId) : Leads H.Rests ((H.engine limit).digest s) := fun _ _ _ h =>
  ⟨(H.tame_of_digests Tree.digests_orders limit).digest s h, fun ht =>
    resting_of_digest hcall ht.idle ht.orderly h⟩

/-- An apply ends with a digest. -/
lemma rests_apply {body : Routine κ σ Value} (hbody : Leads H.Rests body) :
    Leads H.Rests ((H.engine limit).apply body) := by
  have horders : Leads Tree.Orders body := fun _ _ _ h => (hbody h).orders
  intro t r u h
  have hdigests := (H.tame_of_digests Tree.digests_orders limit).digest rootId
  refine ⟨Engine.leads_apply Tree.digests_orders.proceeds hdigests horders h, fun ht => ?_⟩
  obtain ⟨result, v, digested, hrun, hdigest, -⟩ := Engine.runOn_apply_cases ht.idle h
  have hentered : t.Orders (t.entering .apply) :=
    Tree.digests_orders.enter (Tree.enter_of_idle ht.idle .apply)
  have hleft : (v.leave .apply).Orderly :=
    Tree.digests_orders.leave (horders hrun (hentered ht.orderly))
  exact resting_of_digest hcall (Tree.phase_leave v .apply) hleft hdigest

lemma rests_applyQueued : Leads H.Rests (H.engine limit).applyQueued :=
  rests_apply hcall ((Engine.leads_drain_of_dequeue admits_rests
    (fun h => rests_of_dequeue? (H := H) Queue.noConfusion h) hcall).bind fun _ => .pure _)

/-! ## Deferred jobs -/

/-- After a deferred digest the tree rests, since the digest runs unless no task waits. -/
lemma resting_of_runDigest {r : Except Error Unit} (hidle : t.phase = none)
    (horderly : t.Orderly) (h : runOn (H.engine limit).runDigest t = some (r, u)) :
    H.Resting u := by
  rw [Engine.runDigest, Compute.runOn_read_bind] at h
  split at h
  · next hempty =>
    cases h
    exact ⟨hidle, horderly, .inl (List.isEmpty_iff.1 hempty)⟩
  · obtain ⟨-, r₁, v, hdigest, ⟨-, rfl⟩ | ⟨e, -, hreport⟩⟩ := Engine.runOn_contained_cases h
    · exact resting_of_digest hcall hidle horderly hdigest
    · exact (Engine.leads_reportError admits_rests.permits.grants e hreport).resting
        (resting_of_digest hcall hidle horderly hdigest)

lemma rests_runApply : Leads H.Rests (H.engine limit).runApply :=
  Engine.leads_runApply admits_rests.permits.grants
    (fun _ => rests_of_same rfl rfl rfl (.of_journal rfl)) (rests_applyQueued hcall)

/-- The tree rests after a job.  If that was no digest, then the digests that waited wait still. -/
lemma rests_of_job {job : Job} {deferral : Deferral} {r : Except Error Unit}
    (htakes : t.deferral.Takes job deferral)
    (h : runOn ((H.engine limit).runJob job.kind) ({ t with deferral }.note (.ran job.kind)) =
      some (r, u)) : H.Rests t u := by
  have hproceeds := Tree.digests_orders.proceeds (κ := κ) (σ := σ)
  have hgoverned := Engine.tame_of_digests Tree.digests_orders
    ((H.governed limit).invoke Tree.digests_orders)
  have hdrain := Engine.leads_drain Tree.digests_orders.toDrains hgoverned.invoke .apply
  have happly : Leads Tree.Orders (H.engine limit).applyQueued :=
    Engine.leads_apply hproceeds (hgoverned.digest rootId) (hdrain.bind fun _ => .pure _)
  have hrun : Leads Tree.Orders ((H.engine limit).runJob job.kind) :=
    Engine.leads_runJob hproceeds.toPermits.grants hproceeds.tick (hgoverned.digest rootId) happly
      job.kind
  have htaken : t.Orders ({ t with deferral }.note (.ran job.kind)) :=
    .of_subset htakes.filed (List.Subset.refl _) (List.subset_cons_self _ _)
  refine ⟨trans_of Tree.Orders htaken (hrun h), fun ht => ?_⟩
  have horderly := htaken ht.orderly
  have hidle : ({ t with deferral }.note (.ran job.kind)).phase = none := ht.idle
  cases hkind : job.kind with
  | digest =>
    rw [hkind] at h hidle horderly
    exact resting_of_runDigest hcall hidle horderly h
  | apply =>
    have hwaits : t.DigestWaits → ({ t with deferral }.note (.ran job.kind)).DigestWaits := by
      rintro ⟨other, hother, hdigest⟩
      refine ⟨other, htakes.others ht.orderly.filed other hother fun heq => ?_, hdigest⟩
      rw [heq, hkind] at hdigest
      cases hdigest
    have hresting : H.Resting ({ t with deferral }.note (.ran job.kind)) :=
      ⟨hidle, horderly, ht.awake.mono rfl hwaits (.of_step rfl fun heq => by cases heq)⟩
    rw [hkind] at h hresting
    exact (rests_runApply hcall h).resting hresting

lemma rests_flush : Leads H.Rests (H.engine limit).flush := by
  refine Engine.leads_runJobs (fun hnext hrun => ?_) _
  obtain ⟨deferral, htake, rfl⟩ := Tree.takeFirstJob?_cases hnext
  exact rests_of_job hcall (Deferral.takes_of_takeFirst? htake) hrun

lemma rests_advance (milliseconds : ℕ) : Leads H.Rests ((H.engine limit).advance milliseconds) := by
  have hclock : ∀ (t : Tree κ σ) now, H.Rests t (t.setClock now) := fun t now =>
    have horders := Tree.digests_orders.tick (.clock t now)
    ⟨horders, fun ht =>
      ⟨ht.idle, horders ht.orderly, ht.awake.mono rfl id (.of_journal rfl)⟩⟩
  refine (Leads.read _).bind fun _ => Leads.bind (Leads.discard ?_) fun _ => .change (hclock · _)
  refine Engine.leads_runJobs (fun hnext hrun => ?_) _
  obtain ⟨deferral, htake, rfl⟩ := Tree.takeDueJob?_cases hnext
  exact rests_of_job hcall (Deferral.takes_of_takeDue? htake) hrun

end Engine

variable (H)

/-- Whatever a host does with a tree that rests, it rests afterwards. -/
theorem tame_rests (limit : ℕ) : (H.engine limit).Tame H.Rests :=
  H.tame admits_rests (fun _ hcall => {
    invoke := hcall
    digest := rests_digest hcall
    apply := fun _ => rests_apply hcall
    flush := rests_flush hcall
    advance := rests_advance hcall }) limit

/-- After every run the tree is idle; and if tasks wait for a pass, a deferred digest waits too, or
these tasks were left behind. -/
theorem awake_of_run {limit : ℕ} {p : Program κ σ α} {store : Store σ} {compiler : Compiler}
    {config : Config} {timed : Bool} {r : Except Error α}
    (h : H.run limit p (.plant store compiler config timed) = some (r, u)) :
    u.phase = none ∧ (u.queues.async ≠ [] → u.DigestWaits ∨ H.LeftBehind u) := by
  have hplanted : H.Resting (.plant store compiler config timed) :=
    ⟨rfl, Tree.orderly_plant store compiler config timed, .inl rfl⟩
  have hrests := (Engine.leads_execute admits_rests (H.tame_rests limit) p h).resting hplanted
  exact ⟨hrests.idle, hrests.awake.resolve_left⟩

end Host

/-! ## A host that leaves a task behind -/

/-- The procedures of the host. -/
inductive Straggler where
  /-- Is dirty whenever it is observed, and queues a task as it is. -/
  | observe
  /-- Does nothing. -/
  | work

/-- Its first procedure computes a new array each time. -/
def straggler : Host Straggler Unit where
  library := ⟨fun _ _ _ => .endless, fun _ _ => .endless⟩
  report := fun _ host => host
  procedure
    | .observe, _ => do
      Program.request (.evalAsync rootId .work)
      let a ← Program.compute (Store.making (·.newArray #[]))
      return .array a
    | .work, _ => return .undefined

/-- Watches it, digests, which gives up, and queues a task when that is over. -/
def stragglerSetup : Program Straggler Unit Unit := do
  discard <| Program.request (.watch rootId .observe .work false)
  discard <| (Program.request (.digest rootId)).attempt
  Program.request (.evalAsync rootId .work)

lemma straggler_run : ∃ u, straggler.run 9 stragglerSetup
      (.plant ⟨.empty, ()⟩ ⟨.empty, .empty⟩ { digestTtl := 1 } false) = some (.ok (), u) ∧
    u.phase = none ∧ u.queues.async.length = 2 ∧ u.deferral.jobs = [] := by
  generalize hx : straggler.run 9 stragglerSetup _ = x
  cbv at hx
  subst hx
  exact ⟨_, rfl, rfl, rfl, rfl⟩

/-- The tasks that wait at the end of that run were left behind. -/
theorem straggler_left_behind : ∃ u, straggler.run 9 stragglerSetup
      (.plant ⟨.empty, ()⟩ ⟨.empty, .empty⟩ { digestTtl := 1 } false) = some (.ok (), u) ∧
    u.queues.async ≠ [] ∧ straggler.LeftBehind u := by
  obtain ⟨u, hrun, -, hlength, hjobs⟩ := straggler_run
  have hwaiting : u.queues.async ≠ [] := fun h => by simp [h] at hlength
  have hawake := (straggler.awake_of_run hrun).2 hwaiting
  exact ⟨u, hrun, hwaiting, hawake.resolve_left (Tree.not_digestWaits hjobs)⟩

/-- So the tree may be idle with tasks that wait, the last of them queued while it was idle, and
with nothing that is going to wake it up. -/
theorem straggler_sleeps : ∃ u, straggler.run 9 stragglerSetup
      (.plant ⟨.empty, ()⟩ ⟨.empty, .empty⟩ { digestTtl := 1 } false) = some (.ok (), u) ∧
    u.phase = none ∧ u.queues.async ≠ [] ∧ ¬ u.DigestWaits := by
  obtain ⟨u, hrun, hidle, hlength, hjobs⟩ := straggler_run
  exact ⟨u, hrun, hidle, fun h => by simp [h] at hlength, Tree.not_digestWaits hjobs⟩

end DataBinding
