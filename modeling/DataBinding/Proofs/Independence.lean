import DataBinding.Proofs.Likeness

/-!
# What runs do not depend on

A program of the host can look at the whole tree, and so it could look at the journal.  A program
that does not is blind (`Program.Blind`).  If the procedures of a host are blind, then what its
engine does does not depend on the journal (`Host.alike_of_blind`).

The limit of a run only tells whether there is an end: a run that has one is the same with every
higher limit (`Host.run_mono`).

Both come of one comparison.  Two programs are akin if they ask for the same in trees that are alike
(`Program.Akin`), and two hosts are akin if their procedures are (`Host.Akin`).  Then whatever a
program comes to with the one host, an akin program comes to with the other
(`Engine.shadows_execute`).
-/

namespace DataBinding

open Compute (Follows Shadows)

variable {κ σ α β : Type} {L : Likeness κ σ} {P : List (Step κ) → List (Step κ) → Prop}

/-! ## Walks -/

namespace Routine

variable {ι : Type}

lemma follows_andThen {first first' second second' : Routine κ σ Findings}
    (h₁ : Follows L.trees first first') (h₂ : Follows L.trees second second') :
    Follows L.trees (first.andThen second) (first'.andThen second') := by
  refine h₁.bind fun a => ?_
  split
  · exact .pure a
  · exact h₂.bind fun b => .pure _

lemma follows_inOrder {visit visit' : ι → Routine κ σ Findings}
    (h : ∀ x, Follows L.trees (visit x) (visit' x)) (l : List ι) :
    Follows L.trees (inOrder visit l) (inOrder visit' l) := by
  induction l with
  | nil => exact .pure _
  | cons x rest ih => exact follows_andThen (h x) ih

lemma follows_walk {visit visit' : ScopeId → Routine κ σ Findings}
    (h : ∀ s, Follows L.trees (visit s) (visit' s)) {depth depth' : ℕ}
    (hdepth : depth ≤ depth') (s : ScopeId) :
    Follows L.trees (walk visit depth s) (walk visit' depth' s) := by
  induction depth generalizing depth' s with
  | zero => exact .endless
  | succ depth ih =>
    obtain ⟨depth', rfl⟩ := Nat.exists_eq_add_of_le' (Nat.lt_of_lt_of_le depth.succ_pos hdepth)
    exact follows_andThen (h s) ((follows_read fun _ _ => rfl).bind fun children =>
      follows_inOrder (ih (Nat.le_of_succ_le_succ hdepth)) children)

end Routine

/-! ## Programs -/

/-- Whether a request is a look at the tree. -/
def Request.isLook {β : Type} : Request κ σ β → Bool
  | .look => true
  | _ => false

/-- The request is no look at the tree, and a computation does the same whatever the host keeps for
itself of what `Q` relates. -/
def Request.Discreet (Q : σ → σ → Prop) {β : Type} : Request κ σ β → Prop
  | .look => False
  | .compute m => Follows (Store.Alike Q) m m
  | _ => True

lemma Request.discreet_eq {β : Type} {q : Request κ σ β} (hq : q.isLook = false) :
    q.Discreet Eq := by
  cases q with
  | look => cases hq
  | compute m =>
    rw [Discreet, Store.alike_eq]
    exact .of_eq m
  | _ => trivial

namespace Program

/-- What the program does after a look at the tree is the same for all journals that `P` relates. -/
inductive BlindTo (P : List (Step κ) → List (Step κ) → Prop) : Program κ σ α → Prop
  | done (result : Except Error α) : BlindTo P (.done result)
  | look {next : Except Error (Tree κ σ) → Program κ σ α}
    (hsame : ∀ t {journal}, P t.journal journal → next (.ok (t.withJournal journal)) = next (.ok t))
    (hnext : ∀ answer, BlindTo P (next answer)) : BlindTo P (.ask .look next)
  | ask {β : Type} {q : Request κ σ β} {next : Except Error β → Program κ σ α}
    (hq : q.isLook = false) (hnext : ∀ answer, BlindTo P (next answer)) : BlindTo P (.ask q next)

/-- The program does not look at the journal. -/
def Blind (p : Program κ σ α) : Prop := p.BlindTo fun _ _ => True

lemma BlindTo.of_le {Q : List (Step κ) → List (Step κ) → Prop} {p : Program κ σ α}
    (hp : p.BlindTo Q) (h : ∀ l l', P l l' → Q l l') : p.BlindTo P := by
  induction hp with
  | done result => exact .done result
  | look hsame _ ih => exact .look (fun t _ hP => hsame t (h _ _ hP)) ih
  | ask hq _ ih => exact .ask hq ih

/-- No program tells a journal from itself. -/
lemma blindTo_eq (p : Program κ σ α) : p.BlindTo Eq := by
  induction p with
  | done result => exact .done result
  | ask q next ih =>
    cases q with
    | look =>
      refine .look (fun t journal h => ?_) ih
      rw [← h]
      rfl
    | _ => exact .ask rfl ih

lemma Blind.bind {β : Type} {p : Program κ σ α} {f : α → Program κ σ β} (hp : p.Blind)
    (hf : ∀ a, (f a).Blind) : (p >>= f).Blind := by
  induction hp with
  | done result =>
    cases result with
    | ok a => exact hf a
    | error e => exact .done _
  | look hsame _ ih => exact .look (fun t _ hP => by rw [hsame t hP]) ih
  | ask hq _ ih => exact .ask hq ih

lemma blind_request {q : Request κ σ α} (hq : q.isLook = false) : (request q).Blind :=
  .ask hq fun answer => .done answer

/-- As long as the trees that they look at are alike, the two programs ask for the same, one thing
after another, and come to the same result.  Where `free` is the case they may come to different
results. -/
inductive Akin (L : Likeness κ σ) (free : Prop) : Program κ σ α → Program κ σ α → Prop
  | done {r r' : Except Error α} (h : free ∨ r' = r) : Akin L free (.done r) (.done r')
  | look {next next' : Except Error (Tree κ σ) → Program κ σ α}
    (hnext : ∀ t t', L.trees t t' → Akin L free (next (.ok t)) (next' (.ok t'))) :
    Akin L free (.ask .look next) (.ask .look next')
  | ask {β : Type} {q : Request κ σ β} {next next' : Except Error β → Program κ σ α}
    (hq : q.Discreet L.hosts) (hnext : ∀ answer, Akin L free (next answer) (next' answer)) :
    Akin L free (.ask q next) (.ask q next')

variable {free free' : Prop} {p p' : Program κ σ α}

lemma Akin.mono (h : free → free') (hp : p.Akin L free p') : p.Akin L free' p' := by
  induction hp with
  | done hr => exact .done (hr.imp_left h)
  | look _ ih => exact .look ih
  | ask hq _ ih => exact .ask hq ih

lemma Akin.symm (hL : ∀ {t t'}, L.trees t t' → L.trees t' t) (hp : p.Akin L free p') :
    p'.Akin L free p := by
  induction hp with
  | done hr => exact .done (hr.imp_right Eq.symm)
  | look _ ih => exact .look fun t t' ht => ih t' t (hL ht)
  | ask hq _ ih => exact .ask hq ih

lemma Akin.bind {f f' : α → Program κ σ β} (hp : p.Akin L False p')
    (hf : ∀ a, (f a).Akin L free (f' a)) : (p >>= f).Akin L free (p' >>= f') := by
  induction hp with
  | @done _ result hr =>
    obtain rfl := hr.resolve_left id
    cases result with
    | ok a => exact hf a
    | error e => exact .done (.inr rfl)
  | look _ ih => exact .look ih
  | ask hq _ ih => exact .ask hq ih

lemma akin_request {q : Request κ σ α} (hq : q.Discreet L.hosts) :
    (request q).Akin L free (request q) :=
  .ask hq fun _ => .done (.inr rfl)

/-- What goes on after an attempt has to deal with whatever results the attempt may come to. -/
lemma Akin.attempt_bind {f f' : Except Error α → Program κ σ β} (hp : p.Akin L free p')
    (hf : ∀ r r', free ∨ r' = r → (f r).Akin L free' (f' r')) :
    (p.attempt >>= f).Akin L free' (p'.attempt >>= f') := by
  induction hp with
  | done hr => exact hf _ _ hr
  | look _ ih => exact .look ih
  | ask hq _ ih => exact .ask hq ih

lemma BlindTo.akin {hP : Lasting P} (hp : p.BlindTo P) :
    p.Akin (.journal P hP) free p := by
  induction hp with
  | done result => exact .done (.inr rfl)
  | look hsame _ ih =>
    refine .look fun t t' ht => ?_
    obtain ⟨journal, hjournal, rfl⟩ := ht
    rw [hsame t hjournal]
    exact ih (.ok t)
  | ask hq _ ih => exact .ask (Request.discreet_eq hq) ih

end Program

namespace Engine

variable {E E' : Engine κ σ}

/-! ## Checks -/

lemma follows_writeMember (a index : ℕ) (v : Value) :
    Follows L.trees (writeMember (κ := κ) (σ := σ) a index v) (writeMember a index v) :=
  (Routine.follows_read fun _ _ => rfl).bind fun _ => (Follows.ofExcept _).bind fun _ =>
    Routine.follows_changing

lemma follows_reactMember (s : ScopeId) (g : GroupId) (index : ℕ) (change : Change) :
    Follows L.trees (reactMember (κ := κ) (σ := σ) s g index change)
      (reactMember s g index change) := by
  refine (Routine.follows_read fun _ _ => rfl).bind fun group => ?_
  cases group with
  | none => exact .pure ()
  | some group =>
    refine (follows_writeMember _ _ _).bind fun _ => (follows_writeMember _ _ _).bind fun _ =>
      (Routine.follows_alter fun _ _ => rfl).bind fun first => ?_
    cases first with
    | false => exact .pure ()
    | true => exact Routine.follows_change (Tree.blind_queueAsync s _)

variable (hE : E.Akin L E')

include hE

lemma follows_observeInputs (s : ScopeId) (w : WatcherId) (e : Expression) (listener : κ)
    (memo : Option Memo) :
    Follows L.trees (E.observeInputs s w e listener memo)
      (E'.observeInputs s w e listener memo) := by
  refine (follows_evaluateInputs hE s e).bind fun inputs => ?_
  split
  · exact .pure _
  · exact (follows_evaluate hE s e none).bind fun _ =>
      (Routine.follows_change (.of_eq fun _ _ => rfl)).bind fun _ => .pure _

omit hE in
lemma follows_noticeCollection (w : WatcherId) (v : Value) :
    Follows L.trees (Compute.alter (τ := Tree κ σ) (·.noticeCollection w v))
      (Compute.alter (·.noticeCollection w v)) := by
  refine Routine.follows_alter fun t journal => ?_
  simp only [Tree.noticeCollection, Tree.watcher?_withHidden]
  split <;> rfl

lemma follows_observe (s : ScopeId) (w : WatcherId) (kind : WatchKind κ) :
    Follows L.trees (E.observe s w kind) (E'.observe s w kind) := by
  cases kind with
  | procedure | member => exact follows_call hE _ rfl
  | expression e | constant e | oneTime e => exact follows_evaluate hE s e none
  | inputs e listener memo => exact follows_observeInputs hE s w e listener memo
  | collection watch =>
    exact (follows_call hE _ rfl).bind fun v => follows_noticeCollection w v

omit hE in
lemma follows_record (w : WatcherId) (new : Value) :
    Follows L.trees (Compute.alterEndless (τ := Tree κ σ) (·.record w new))
      (Compute.alterEndless (·.record w new)) := by
  refine .alterEndless fun t t' a u =>
    Routine.exists_alike_of_some (f := (·.record w new)) fun t => ⟨[], fun _ => ?_⟩
  simp only [Tree.record, Tree.watcher?_withHidden, Tree.withHidden_store_heap]
  split
  · rfl
  · split
    · rfl
    · simp only [Option.map_map]
      rfl

lemma follows_check (w : WatcherId) : Follows L.trees (E.check w) (E'.check w) := by
  refine (Routine.follows_change (Tree.blind_note _)).bind fun _ =>
    (Routine.follows_read fun _ _ => rfl).bind fun watcher => ?_
  cases watcher with
  | none => exact .pure none
  | some watcher =>
    exact (follows_observe hE _ w _).bind fun new => follows_record w new

/-! ## Reactions -/

lemma shadows_reactOneTime (s : ScopeId) (w : WatcherId) (e : Expression) (listener : κ)
    (change : Change) :
    Shadows L.lax L.trees (E.reactOneTime s w e listener change)
      (E'.reactOneTime s w e listener change) := by
  refine (Routine.follows_change (.of_eq fun _ _ => rfl)).bind_shadows fun _ =>
    (shadows_tell hE _ _ _).attempt_bind fun _ _ hresult =>
      (Routine.follows_read fun _ _ => rfl).bind_shadows fun settled => ?_
  cases settled with
  | true =>
    exact (Routine.follows_change (Tree.blind_enqueue _ _ _)).bind_shadows fun _ =>
      .ofExcept hresult
  | false => exact .ofExcept hresult

lemma shadows_react (s : ScopeId) (w : WatcherId) (change : Change) (kind : WatchKind κ) :
    Shadows L.lax L.trees (E.react s w change kind) (E'.react s w change kind) := by
  cases kind with
  | procedure | expression | inputs => exact shadows_tell hE _ _ _
  | constant e listener =>
    exact (shadows_tell hE _ _ _).attempt_bind fun _ _ hresult =>
      (Routine.follows_change (Tree.blind_removeWatcher w)).bind_shadows fun _ => .ofExcept hresult
  | oneTime e listener => exact shadows_reactOneTime hE s w e listener change
  | member watch g index => exact (follows_reactMember s g index change).shadows _
  | collection watch listener state =>
    exact (Routine.follows_alter fun _ _ => rfl).bind_shadows fun change =>
      shadows_tell hE _ _ _

lemma shadows_notify (w : WatcherId) (change : Change) :
    Shadows L.lax L.trees (E.notify w change) (E'.notify w change) := by
  refine (Routine.follows_read fun _ _ => rfl).bind_shadows fun watcher => ?_
  cases watcher with
  | none => exact (Follows.pure ()).shadows _
  | some watcher => exact shadows_react hE _ w change _

/-! ## Passes -/

lemma follows_inspect (w : WatcherId) : Follows L.trees (E.inspect w) (E'.inspect w) := by
  refine (follows_check hE w).attempt.bind fun result => ?_
  rcases result with e | _ | change
  · exact (follows_reportError hE e).bind fun _ => .pure _
  · exact (Routine.follows_read fun _ _ => rfl).bind fun _ => .pure _
  · exact (Routine.follows_change (.of_eq fun _ _ => rfl)).bind fun _ =>
      (follows_contained hE (shadows_notify hE w change)).bind fun _ => .pure _

lemma follows_visitWatcher (w : WatcherId) :
    Follows L.trees (E.visitWatcher w) (E'.visitWatcher w) := by
  refine (Routine.follows_read fun _ _ => rfl).bind fun active => ?_
  cases active with
  | true => exact follows_inspect hE w
  | false => exact .pure _

lemma follows_visitScope (s : ScopeId) :
    Follows L.trees (E.visitScope s) (E'.visitScope s) :=
  (Routine.follows_read fun _ _ => rfl).bind fun ws =>
    Routine.follows_inOrder (follows_visitWatcher hE) ws

lemma follows_pass (s : ScopeId) : Follows L.trees (E.pass s) (E'.pass s) :=
  (Routine.follows_change (Tree.blind_note _)).bind fun _ =>
    (Routine.follows_walk (follows_visitScope hE) hE.limit s).bind fun _ => .pure _

/-! ## Digests -/

lemma follows_passes (s : ScopeId) (allowed : ℕ) :
    Follows L.trees (E.passes s allowed) (E'.passes s allowed) := by
  induction allowed with
  | zero =>
    refine (follows_drain hE .async).bind fun _ => (follows_pass hE s).bind fun dirty =>
      (Routine.follows_read fun _ _ => rfl).bind fun idle => ?_
    split
    · exact .pure _
    · exact .pure _
  | succ allowed ih =>
    refine (follows_drain hE .async).bind fun _ => (follows_pass hE s).bind fun dirty =>
      (Routine.follows_read fun _ _ => rfl).bind fun idle => ?_
    split
    · exact .pure _
    · exact ih

omit hE in
lemma follows_enter (phase : Phase) :
    Follows L.trees (enter (κ := κ) (σ := σ) phase) (enter phase) := by
  rintro t t' r u ht h
  have hbegun := L.change (f := fun t => { t with phase := some phase }.note (.entered phase))
    (fun _ => ⟨[.entered phase], fun _ => rfl⟩) ht
  obtain ⟨x, rfl⟩ := L.hidden ht
  rw [enter, Compute.runOn_read_bind] at h ⊢
  cases hphase : t.phase with
  | some active =>
    rw [Tree.enter_of_busy hphase] at h
    rw [Tree.enter_of_busy (t := t.withHidden x) hphase]
    cases h
    exact ⟨_, rfl, ht⟩
  | none =>
    simp only [Tree.enter, hphase, Tree.withHidden_phase] at h ⊢
    cases h
    exact ⟨_, rfl, hbegun⟩

omit hE in
lemma follows_leave (phase : Phase) :
    Follows L.trees (leave (κ := κ) (σ := σ) phase) (leave phase) :=
  Routine.follows_change fun _ => ⟨[.left phase], fun _ => rfl⟩

lemma follows_digest (s : ScopeId) : Follows L.trees (E.digest s) (E'.digest s) := by
  have hstart : Tree.Blind fun t : Tree κ σ => { t with lastDirty := none }.cancelApply :=
    Tree.blind_cancelApply.comp (.of_eq fun _ _ => rfl)
  refine (follows_enter .digest).bind fun _ => (Routine.follows_change hstart).bind fun _ =>
    (follows_drain hE .apply).bind fun _ => (Routine.follows_read fun _ _ => rfl).bind fun ttl =>
      (follows_passes hE s ttl).bind fun settled => (follows_leave .digest).bind fun _ => ?_
  cases settled with
  | true => exact follows_drain hE .postDigest
  | false => exact .throw _

lemma follows_apply {body body' : Routine κ σ Value} (hbody : Follows L.trees body body') :
    Follows L.trees (E.apply body) (E'.apply body') :=
  (follows_enter .apply).bind fun _ => hbody.attempt.bind fun result =>
    (follows_leave .apply).bind fun _ => (follows_digest hE rootId).bind fun _ =>
      .ofExcept result

/-! ## Deferred jobs -/

lemma follows_runDigest : Follows L.trees E.runDigest E'.runDigest := by
  refine (Routine.follows_read fun _ _ => rfl).bind fun idle => ?_
  cases idle with
  | true => exact .pure ()
  | false => exact follows_contained hE ((follows_digest hE rootId).shadows _)

lemma follows_runApply : Follows L.trees E.runApply E'.runApply := by
  refine (Routine.follows_alter fun _ _ => rfl).bind fun pending => ?_
  cases pending with
  | false => exact .pure ()
  | true =>
    refine (follows_apply hE ((follows_drain hE .apply).bind fun _ =>
      .pure _)).attempt.bind fun result => ?_
    split
    · exact .pure ()
    · exact Routine.follows_change (Tree.blind_enqueue _ _ _)
    · exact follows_reportError hE _

lemma follows_runJobs {next : Tree κ σ → Option (Job × Tree κ σ)}
    (hnext : Follows L.trees (Compute.alter? next) (Compute.alter? next)) {limit limit' : ℕ}
    (hlimit : limit ≤ limit') :
    Follows L.trees (E.runJobs next limit) (E'.runJobs next limit') := by
  induction limit generalizing limit' with
  | zero => exact .endless
  | succ limit ih =>
    obtain ⟨limit', rfl⟩ := Nat.exists_eq_add_of_le' (Nat.lt_of_lt_of_le limit.succ_pos hlimit)
    refine hnext.bind fun job => ?_
    rcases job with _ | ⟨id, due, kind⟩
    · exact .pure 0
    · have hjob : Follows L.trees (E.runJob kind) (E'.runJob kind) := by
        cases kind with
        | digest => exact follows_runDigest hE
        | apply => exact follows_runApply hE
      exact hjob.bind fun _ => (ih (Nat.le_of_succ_le_succ hlimit)).bind fun ran => .pure _

lemma follows_flush : Follows L.trees E.flush E'.flush := by
  refine follows_runJobs hE (Routine.follows_alter? fun t => ?_) hE.limit
  simp only [Tree.takeFirstJob?, Tree.withHidden_deferral]
  cases t.deferral.takeFirst? with
  | none => exact ⟨[], fun _ => rfl⟩
  | some x => exact ⟨[.ran x.1.kind], fun _ => rfl⟩

lemma follows_advance (milliseconds : ℕ) :
    Follows L.trees (E.advance milliseconds) (E'.advance milliseconds) := by
  refine (Routine.follows_read fun _ _ => rfl).bind fun deadline => ?_
  refine (follows_runJobs hE (Routine.follows_alter? fun t => ?_) hE.limit).discard.bind
    fun _ => Routine.follows_change (.of_eq fun _ _ => rfl)
  simp only [Tree.takeDueJob?, Tree.withHidden_deferral]
  cases t.deferral.takeDue? deadline with
  | none => exact ⟨[], fun _ => rfl⟩
  | some x => exact ⟨[.ran x.1.kind], fun _ => rfl⟩

/-! ## Requests -/

omit hE in
lemma follows_watchExpression (s : ScopeId) (source : String) (listener : κ) (byValue : Bool) :
    Follows L.trees (watchExpression (σ := σ) s source listener byValue)
      (watchExpression s source listener byValue) :=
  (follows_parse source).bind fun _ => .map _ (Routine.follows_alter fun _ _ => rfl)

omit hE in
lemma follows_watchGroup (s : ScopeId) (watches : List κ) (listener : κ) :
    Follows L.trees (watchGroup (σ := σ) s watches listener)
      (watchGroup s watches listener) := by
  unfold watchGroup
  split
  · exact (Routine.follows_alter fun _ _ => rfl).bind fun a =>
      (Routine.follows_change (Tree.blind_queueAsync s _)).bind fun _ => .pure _
  · refine (Routine.follows_alter fun _ _ => rfl).bind fun g => .map _ ?_
    exact Routine.follows_alter fun t x => Tree.blind_addMembers s g watches 0 t x

lemma follows_broadcast (s : ScopeId) (name : String) (args : List Value) :
    Follows L.trees (E.broadcast s name args) (E'.broadcast s name args) :=
  follows_send s name false fun e => (Routine.follows_walk (fun q =>
    (follows_deliver hE e name args q).bind fun _ => .pure _) hE.limit s).discard

lemma follows_destroy (s : ScopeId) : Follows L.trees (E.destroy s) (E'.destroy s) := by
  refine (Routine.follows_read fun _ _ => rfl).bind fun destroyed => ?_
  cases destroyed with
  | true => exact .pure ()
  | false =>
    exact (Routine.follows_change (.of_eq fun _ _ => rfl)).bind fun _ =>
      (follows_broadcast hE s destroyEvent []).discard.bind fun _ =>
        Routine.follows_change (Tree.blind_tearDown s)

/-- Every request but a look at the tree. -/
lemma follows_answer {β : Type} {q : Request κ σ β} (hq : q.Discreet L.hosts) :
    Follows L.trees (E.answer q) (E'.answer q) := by
  have hadd : ∀ s kind byValue, Follows L.trees
      (Registration.watcher <$> Compute.alter (τ := Tree κ σ) (·.addWatcher s kind byValue))
      (Registration.watcher <$> Compute.alter (·.addWatcher s kind byValue)) :=
    fun _ _ _ => .map _ (Routine.follows_alter fun _ _ => rfl)
  cases q with
  | look => exact hq.elim
  | compute m => exact Routine.follows_onStore hq
  | parse source => exact follows_parse source
  | registerFilter | clearCache => exact Routine.follows_change (.of_eq fun _ _ => rfl)
  | evaluate s source locals => exact follows_evaluateSource hE s source locals
  | newChild => exact Routine.follows_alter fun _ _ => rfl
  | destroy s => exact follows_destroy hE s
  | watch | watchCollection => exact hadd _ _ _
  | watchExpression s source listener byValue =>
    exact follows_watchExpression s source listener byValue
  | watchGroup s watches listener => exact follows_watchGroup s watches listener
  | listen => exact .map _ (Routine.follows_alter fun _ _ => rfl)
  | deregister r => exact Routine.follows_change (Tree.blind_deregister r)
  | evalAsync s procedure => exact Routine.follows_change (Tree.blind_queueAsync s _)
  | applyAsync s procedure => exact Routine.follows_change (Tree.blind_queueApply s _)
  | postDigest s procedure => exact Routine.follows_change (Tree.blind_enqueue _ s _)
  | digest s => exact follows_digest hE s
  | apply s procedure => exact follows_apply hE (follows_call hE procedure rfl)
  | applySource s source => exact follows_apply hE (follows_evaluateSource hE s source none)
  | emit s name args => exact follows_emit hE s name args
  | broadcast s name args => exact follows_broadcast hE s name args
  | stop | prevent => exact Routine.follows_change (.of_eq fun _ _ => rfl)
  | report e => exact follows_reportError hE e
  | flush => exact follows_flush hE
  | advance milliseconds => exact follows_advance hE milliseconds

/-- Akin programs run alike with akin engines. -/
theorem shadows_execute {free : Prop} {p p' : Program κ σ α} (hp : p.Akin L free p') :
    Shadows free L.trees (E.execute p) (E'.execute p') := by
  induction hp with
  | done h => exact .ofExcept h
  | ask hq _ ih => exact (follows_answer hE hq).attempt.bind_shadows fun answer => ih answer
  | look _ ih =>
    intro t t' r u ht h
    rw [execute, answer, Compute.runOn_attempt_bind_of_run (Compute.runOn_read _ _)] at h ⊢
    exact ih t t' ht ht h

end Engine

/-! ## Hosts -/

namespace Host

/-- The hosts have the same functions, filters and way with errors, and these suit the likeness; and
the procedures are akin.  With a lax likeness listeners and tasks may come to different results. -/
structure Akin (L : Likeness κ σ) (H H' : Host κ σ) : Prop where
  library : H'.library = H.library
  report : H'.report = H.report
  suits : L.Suits H.library H.report
  procedure : ∀ procedure how, (H.procedure procedure how).Akin L (L.lax ∧ how.isHeeded = false)
    (H'.procedure procedure how)

variable {H H' : Host κ σ}

lemma Akin.symm (hL : ∀ {t t'}, L.trees t t' → L.trees t' t) (h : H.Akin L H') : H'.Akin L H where
  library := h.library.symm
  report := h.report.symm
  suits := by
    rw [h.library, h.report]
    exact h.suits
  procedure procedure how := (h.procedure procedure how).symm hL

/-- Akin hosts have akin engines. -/
theorem Akin.engine (h : H.Akin L H') {limit limit' : ℕ}
    (hlimit : limit ≤ limit') : (H.engine limit).Akin L (H'.engine limit') := by
  refine ⟨h.library, h.report, h.suits, hlimit, fun procedure how => ?_⟩
  change Shadows _ _ (H.invoke limit procedure how) (H'.invoke limit' procedure how)
  induction limit generalizing limit' procedure how with
  | zero => exact .endless
  | succ limit ih =>
    obtain ⟨limit', rfl⟩ := Nat.exists_eq_add_of_le' (Nat.lt_of_lt_of_le limit.succ_pos hlimit)
    have hle : limit ≤ limit' := Nat.le_of_succ_le_succ hlimit
    have hE : (H.engine limit).Akin L (H'.engine limit') :=
      ⟨h.library, h.report, h.suits, hle, ih hle⟩
    exact Engine.shadows_execute hE (h.procedure procedure how)

variable (H)

/-- No procedure looks at the journal. -/
def Blind : Prop := ∀ procedure how, (H.procedure procedure how).Blind

lemma suits_journal (hP : Lasting P) :
    (Likeness.journal (σ := σ) P hP).Suits H.library H.report where
  respected := Store.alike_eq.symm ▸ respected_eq H.library
  reports e _ _ h := congrArg (H.report e) h
  pardons h := h.elim

lemma akin_of_blindTo (hP : Lasting P)
    (hblind : ∀ procedure how, (H.procedure procedure how).BlindTo P) {limit limit' : ℕ}
    (hlimit : limit ≤ limit') : (H.engine limit).Akin (.journal P hP) (H.engine limit') :=
  Akin.engine ⟨rfl, rfl, H.suits_journal hP, fun procedure how => (hblind procedure how).akin⟩
    hlimit

variable {H}

/-- What the engine of a host with blind procedures does does not depend on the journal. -/
theorem alike_of_blind (hP : Lasting P) (hblind : H.Blind) (limit : ℕ) :
    (H.engine limit).Akin (.journal P hP) (H.engine limit) :=
  H.akin_of_blindTo hP (fun procedure how => (hblind procedure how).of_le fun _ _ _ => trivial)
    limit.le_refl

variable (H)

lemma akin_of_le {limit limit' : ℕ} (hlimit : limit ≤ limit') :
    (H.engine limit).Akin (.journal Eq lasting_eq) (H.engine limit') :=
  H.akin_of_blindTo lasting_eq (fun _ _ => Program.blindTo_eq _) hlimit

/-- A run that has an end is the same with every higher limit. -/
theorem run_mono {limit limit' : ℕ} (hlimit : limit ≤ limit') {p : Program κ σ α} {t u : Tree κ σ}
    {r : Except Error α} (h : H.run limit p t = some (r, u)) : H.run limit' p t = some (r, u) := by
  have hfollows := (Engine.shadows_execute (H.akin_of_le hlimit)
    (Program.blindTo_eq p).akin).follows id
  obtain ⟨u', hrun, journal, rfl, rfl⟩ := hfollows ⟨t.journal, rfl, rfl⟩ h
  exact hrun

end Host

end DataBinding
