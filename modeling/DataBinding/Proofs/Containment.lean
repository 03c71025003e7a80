import DataBinding.Proofs.Independence
import DataBinding.Proofs.Requests

/-!
# Errors of listeners and tasks

Where a listener or a task ends with an error, the engine hands it to the host and goes on as it
does where there is none: nothing that is to be done after the call is left out, and no pass, queue
or event ends early.

So let a host only record the errors that it is told of, and let nothing that it does look at the
record (`Host.Records`).  Let the listeners and tasks of another host do the same, but let some of
them end with a value where they end with an error for the first (`Host.Pardons`).  Then a run of
the one is like the run of the other: the same procedures are called with the same arguments in the
same order, the results are the same, and the trees that the runs leave behind differ in what was
recorded only.  The same holds of the trees before and after each call, as far as anybody can take
something down of them (`Host.run_of_pardons`).
-/

namespace DataBinding

open Compute (Follows runOn)

variable {κ σ ν α : Type} {view : σ → ν}

/-! ## Trees that differ in what was recorded -/

/-- Whether the step tells of an error that the host was told of. -/
def Step.isReport : Step κ → Bool
  | .reported _ => true
  | _ => false

/-- The journals tell of the same steps in the same order, up to errors that the host was told
of. -/
def SameButReports (l l' : List (Step κ)) : Prop :=
  l.filter (!·.isReport) = l'.filter (!·.isReport)

namespace SameButReports

variable {l l' : List (Step κ)}

lemma append (h : SameButReports l l') (steps : List (Step κ)) :
    SameButReports (steps ++ l) (steps ++ l') := by
  rw [SameButReports, List.filter_append, List.filter_append, h]

lemma calls (h : SameButReports l l') :
    l'.filterMap Step.call? = l.filterMap Step.call? := by
  have hcalls : ∀ l : List (Step κ),
      (l.filter (!·.isReport)).filterMap Step.call? = l.filterMap Step.call? := fun l => by
    rw [List.filterMap_filter]
    refine List.filterMap_congr fun step _ => ?_
    cases step <;> rfl
  rw [← hcalls, ← hcalls l, h]

end SameButReports

/-- The trees are the same, up to the errors that the host was told of: the journals may differ in
these, and what the host keeps for itself in what `view` does not show. -/
def Tree.SameButErrors (view : σ → ν) (t t' : Tree κ σ) : Prop :=
  ∃ journal host, SameButReports t.journal journal ∧ view host = view t.store.host ∧
    t' = { t with store := { t.store with host }, journal }

namespace Tree.SameButErrors

variable {t t' : Tree κ σ}

lemma refl (t : Tree κ σ) : t.SameButErrors view t := ⟨t.journal, t.store.host, rfl, rfl, rfl⟩

lemma symm (h : t.SameButErrors view t') : t'.SameButErrors view t := by
  obtain ⟨journal, host, hjournal, hview, rfl⟩ := h
  exact ⟨t.journal, t.store.host, Eq.symm hjournal, hview.symm, rfl⟩

lemma calls (h : t.SameButErrors view t') : t'.calls = t.calls := by
  obtain ⟨journal, host, hjournal, -, rfl⟩ := h
  exact hjournal.calls

/-- Being told of an error changes nothing for a host that only records it. -/
lemma reported (h : t.SameButErrors view t') {report : Error → σ → σ}
    (hreport : ∀ e x, view (report e x) = view x) (e : Error) :
    (t.reported report e).SameButErrors view t' := by
  obtain ⟨journal, host, hjournal, hview, rfl⟩ := h
  exact ⟨journal, host, hjournal, hview.trans (hreport e _).symm, rfl⟩

end Tree.SameButErrors

/-- Trees are alike if they are the same up to the errors that the host was told of. -/
@[reducible] def Likeness.record (view : σ → ν) : Likeness κ σ where
  trees := Tree.SameButErrors view
  hosts x x' := view x' = view x
  lax := True
  hidden h := by
    obtain ⟨journal, host, -, -, rfl⟩ := h
    exact ⟨⟨journal, host⟩, rfl⟩
  change {f} hf {t t'} h := by
    obtain ⟨journal, host, hjournal, hview, rfl⟩ := h
    obtain ⟨steps, hhidden, hsteps⟩ := hf.exists_steps t
    obtain ⟨hleft, hhost⟩ := Tree.Hidden.mk.inj hhidden
    refine ⟨steps ++ journal, host, ?_, hview.trans (congrArg view hhost).symm,
      hsteps ⟨journal, host⟩⟩
    exact hleft ▸ hjournal.append steps
  host h := by
    obtain ⟨journal, host, -, hview, rfl⟩ := h
    exact hview
  withStore h hview heap := by
    obtain ⟨journal, host, hjournal, -, rfl⟩ := h
    exact ⟨journal, _, hjournal, hview, rfl⟩

/-! ## Programs that are pardoned -/

namespace Program

/-- The program does the same whatever the host has recorded. -/
def Ignores (view : σ → ν) (p : Program κ σ α) : Prop := p.Akin (.record view) False p

/-- The second program asks for the same as the first, one thing after another, and comes to the
same result; but where the first comes to an error, the second may come to a value. -/
inductive Pardons : Program κ σ α → Program κ σ α → Prop
  | done (result : Except Error α) : Pardons (.done result) (.done result)
  | pardon (e : Error) (a : α) : Pardons (.done (.error e)) (.done (.ok a))
  | ask {β : Type} {q : Request κ σ β} {next next' : Except Error β → Program κ σ α}
    (hnext : ∀ answer, Pardons (next answer) (next' answer)) : Pardons (.ask q next) (.ask q next')

variable {p p' q : Program κ σ α}

/-- Of two akin programs the second may be replaced by one that is pardoned, if the results are
free. -/
lemma Akin.of_pardons {L : Likeness κ σ} (hp : p.Akin L False q) (hq : q.Pardons p') :
    p.Akin L True p' := by
  induction hp generalizing p' with
  | done => cases hq <;> exact .done (.inl trivial)
  | look _ ih =>
    cases hq with
    | ask hnext => exact .look fun t t' ht => ih t t' ht (hnext _)
  | ask hdiscreet _ ih =>
    cases hq with
    | ask hnext => exact .ask hdiscreet fun answer => ih answer (hnext answer)

end Program

/-! ## Hosts that record errors -/

namespace Host

/-- The host only records the errors that it is told of, and nothing that it does looks at the
record: neither its functions, nor its filters, nor its procedures. -/
structure Records (view : σ → ν) (H : Host κ σ) : Prop where
  report : ∀ e x, view (H.report e x) = view x
  call : ∀ name this args, Follows (Store.Alike fun x x' => view x' = view x)
    (H.library.call name this args) (H.library.call name this args)
  filter : ∀ behaviour args, Follows (Store.Alike fun x x' => view x' = view x)
    (H.library.filter behaviour args) (H.library.filter behaviour args)
  procedure : ∀ procedure how, (H.procedure procedure how).Ignores view

/-- The second host is the first, but where a listener or a task of the first ends with an error, it
may end with a value.  What is watched and what is applied stays as it is. -/
structure Pardons (H H' : Host κ σ) : Prop where
  library : H'.library = H.library
  report : H'.report = H.report
  heeded : ∀ procedure how, how.isHeeded = true →
    H'.procedure procedure how = H.procedure procedure how
  unheeded : ∀ procedure how, how.isHeeded = false →
    (H.procedure procedure how).Pardons (H'.procedure procedure how)

variable {H H' : Host κ σ}

lemma Records.suits (h : H.Records view) :
    (Likeness.record (κ := κ) view).Suits H.library H.report where
  respected := respected_alike h.call h.filter
  reports e _ _ hx := (h.report e _).trans (hx.trans (h.report e _).symm)
  pardons _ e _ _ ht := ⟨ht.reported h.report e, (ht.symm.reported h.report e).symm⟩

lemma Records.akin (h : H.Records view) (hpardons : H.Pardons H') : H.Akin (.record view) H' where
  library := hpardons.library
  report := hpardons.report
  suits := h.suits
  procedure procedure how := by
    cases hhow : how.isHeeded with
    | true =>
      rw [hpardons.heeded procedure how hhow]
      exact (h.procedure procedure how).mono False.elim
    | false =>
      exact ((h.procedure procedure how).of_pardons (hpardons.unheeded procedure how hhow)).mono
        fun _ => ⟨trivial, rfl⟩

/-! ## Runs -/

/-- Both runs have come to the same: to the same result, by the same calls, and to trees that are
the same up to the errors that the host was told of. -/
structure SameOutcome (view : σ → ν) (x y : Except Error α × Tree κ σ) : Prop where
  result : y.1 = x.1
  calls : y.2.calls = x.2.calls
  trees : x.2.SameButErrors view y.2

lemma Akin.run (h : H.Akin (.record view) H') {p : Program κ σ α} (hp : p.Ignores view)
    (limit : ℕ) (t : Tree κ σ) :
    Option.Rel (SameOutcome view) (H.run limit p t) (H'.run limit p t) := by
  have hfollows : ∀ {H H' : Host κ σ}, H.Akin (.record view) H' →
      Follows (Tree.SameButErrors view) ((H.engine limit).execute p)
        ((H'.engine limit).execute p) :=
    fun h => (Engine.shadows_execute (h.engine le_rfl) hp).follows id
  exact (hfollows h).rel (hfollows (h.symm Tree.SameButErrors.symm)) (.refl t) (.refl t)
    fun _ _ _ hu => ⟨rfl, hu.calls, hu⟩

/-! ## What can be taken down of a run -/

end Host

/-- Takes something down of the tree. -/
def Program.takeDown (note : Tree κ σ → σ → σ) : Program κ σ Unit := do
  let t ← request .look
  compute (.change fun s => { s with host := note t s.host })

namespace Host

variable {H H' : Host κ σ}

/-- The host that takes something down of the tree before and after each call of a procedure. -/
def noting (H : Host κ σ) (note : κ → Invocation → Tree κ σ → σ → σ) : Host κ σ where
  library := H.library
  report := H.report
  procedure procedure how := do
    Program.takeDown (note procedure how)
    let result ← (H.procedure procedure how).attempt
    Program.takeDown (note procedure how)
    .done result

/-- What is taken down does not depend on the record. -/
structure Notes (view : σ → ν) (note : κ → Invocation → Tree κ σ → σ → σ) : Prop where
  tree : ∀ procedure how {t t'}, t.SameButErrors view t' →
    note procedure how t' = note procedure how t
  host : ∀ procedure how t {x x'}, view x' = view x →
    view (note procedure how t x') = view (note procedure how t x)

lemma Notes.takeDown_bind {note : κ → Invocation → Tree κ σ → σ → σ} (hnote : Notes view note)
    (procedure : κ) (how : Invocation) {free : Prop} {p p' : Program κ σ α}
    (hp : p.Akin (.record view) free p') :
    Program.Akin (.record view) free (Program.takeDown (note procedure how) >>= fun _ => p)
      (Program.takeDown (note procedure how) >>= fun _ => p') := by
  refine .look fun t t' ht => ?_
  change Program.Akin _ _ (.ask (.compute (.change fun s =>
    { s with host := note procedure how t s.host })) _) (.ask (.compute (.change fun s =>
    { s with host := note procedure how t' s.host })) _)
  rw [hnote.tree procedure how ht]
  refine .ask (.change fun s s' hs => ⟨hs.1, hnote.host procedure how t hs.2⟩) fun answer => ?_
  cases answer with
  | ok => exact hp
  | error e => exact .done (.inr rfl)

lemma Akin.noting (h : H.Akin (.record view) H') {note : κ → Invocation → Tree κ σ → σ → σ}
    (hnote : Notes view note) : (H.noting note).Akin (.record view) (H'.noting note) where
  library := h.library
  report := h.report
  suits := h.suits
  procedure procedure how :=
    hnote.takeDown_bind procedure how <| (h.procedure procedure how).attempt_bind fun _ _ hresult =>
      hnote.takeDown_bind procedure how (.done hresult)

/-- The errors of listeners and tasks are contained.  Let a host only record errors, and let its
listeners and tasks be pardoned in another host.  Then every run comes to the same with both, or to
no end with either; and it does so as well if, before and after each call, anything is taken down of
the tree that does not depend on the record. -/
theorem run_of_pardons (hrecords : H.Records view) (hpardons : H.Pardons H') {p : Program κ σ α}
    (hp : p.Ignores view) (limit : ℕ) (t : Tree κ σ) :
    Option.Rel (SameOutcome view) (H.run limit p t) (H'.run limit p t) ∧
      ∀ note, Notes view note → Option.Rel (SameOutcome view) ((H.noting note).run limit p t)
        ((H'.noting note).run limit p t) :=
  have h := hrecords.akin hpardons
  ⟨h.run hp limit t, fun _ hnote => (h.noting hnote).run hp limit t⟩

end Host

/-! ## A host that slips -/

/-- The procedures of a host whose listeners and tasks may slip. -/
inductive Clumsy where
  | source
  | listener
  | task

/-- A host that keeps what its listeners and tasks say, and records errors.  The listeners and tasks
speak, and then end with an error if they slip. -/
def clumsy (slips : Bool) : Host Clumsy (List String × List Error) where
  library := ⟨fun _ _ _ => .endless, fun _ _ => .endless⟩
  report e := fun (said, errors) => (said, e :: errors)
  procedure
    | .listener, .changed .. => speak "changed"
    | .listener, .event .. => speak "heard"
    | .task, .task _ => speak "done"
    | _, _ => return .undefined
where
  /-- Says something, and slips. -/
  speak (words : String) : Program Clumsy (List String × List Error) Value := do
    Program.compute (.change fun s => { s with host := (words :: s.host.1, s.host.2) })
    .done (if slips then .error (.callback "slip") else .ok .undefined)

/-- Watches a value alone and in a group, listens for an event, and queues tasks; then sends the
event and digests. -/
def clumsySetup : Program Clumsy (List String × List Error) Unit := do
  let _ ← Program.request (.watch rootId .source .listener false)
  let _ ← Program.request (.watchGroup rootId [.source] .listener)
  let _ ← Program.request (.listen rootId "event" .listener)
  Program.request (.evalAsync rootId .task)
  Program.request (.postDigest rootId .task)
  let _ ← Program.request (.emit rootId "event" [])
  Program.request (.digest rootId)

lemma clumsy_records (slips : Bool) : (clumsy slips).Records Prod.fst where
  report _ _ := rfl
  call _ _ _ := .endless
  filter _ _ := .endless
  procedure procedure how := by
    have hspeak : ∀ words, (clumsy.speak slips words).Ignores Prod.fst := fun words => by
      refine .bind (.ask (.change fun s s' hs => ?_) fun _ => .done (.inr rfl)) fun _ =>
        .done (.inr rfl)
      exact ⟨hs.1, congrArg (words :: ·) hs.2⟩
    cases procedure <;> cases how <;> first | exact hspeak _ | exact .done (.inr rfl)

lemma clumsy_pardons : (clumsy true).Pardons (clumsy false) where
  library := rfl
  report := rfl
  heeded procedure how hhow := by
    cases procedure <;> cases how <;> first | rfl | cases hhow
  unheeded procedure how _ := by
    have hspeak : ∀ words, (clumsy.speak true words).Pardons (clumsy.speak false words) :=
      fun words => .ask fun answer => by
        cases answer with
        | ok => exact .pardon _ _
        | error e => exact .done _
    cases procedure <;> cases how <;> first | exact hspeak _ | exact .done _

lemma clumsySetup_ignores : clumsySetup.Ignores Prod.fst := by
  have hask : ∀ {β : Type} (q : Request Clumsy (List String × List Error) β),
      q.Discreet (fun x x' => x'.1 = x.1) → (Program.request q).Ignores Prod.fst :=
    fun _ hq => Program.akin_request hq
  refine (hask _ ?_).bind fun _ => (hask _ ?_).bind fun _ => (hask _ ?_).bind fun _ =>
    (hask _ ?_).bind fun _ => (hask _ ?_).bind fun _ => (hask _ ?_).bind fun _ => hask _ ?_
  all_goals exact trivial

/-- Takes down whether a task waits for the next pass. -/
def clumsyNote (_ : Clumsy) (_ : Invocation) (t : Tree Clumsy (List String × List Error))
    (host : List String × List Error) : List String × List Error :=
  ((if t.queues.async.isEmpty then "idle" else "busy") :: host.1, host.2)

lemma notes_clumsyNote : Host.Notes Prod.fst clumsyNote where
  tree _ _ _ _ ht := by
    obtain ⟨journal, host, -, -, rfl⟩ := ht
    rfl
  host _ _ _ _ _ hx := congrArg (_ :: ·) hx

/-- If they slip, that host is told of five errors, and else of none.  The nine calls are the same,
and so is what is taken down before and after them. -/
theorem clumsy_outcome : ∃ x y x' y',
    (clumsy true).run 9 clumsySetup (.plant ⟨.empty, [], []⟩ ⟨.empty, .empty⟩ {} false) = some x ∧
    (clumsy false).run 9 clumsySetup (.plant ⟨.empty, [], []⟩ ⟨.empty, .empty⟩ {} false) = some y ∧
    Host.SameOutcome Prod.fst x y ∧ x.2.calls.length = 9 ∧
    x.2.store.host.2.length = 5 ∧ y.2.store.host.2.length = 0 ∧
    ((clumsy true).noting clumsyNote).run 9 clumsySetup
      (.plant ⟨.empty, [], []⟩ ⟨.empty, .empty⟩ {} false) = some x' ∧
    ((clumsy false).noting clumsyNote).run 9 clumsySetup
      (.plant ⟨.empty, [], []⟩ ⟨.empty, .empty⟩ {} false) = some y' ∧
    Host.SameOutcome Prod.fst x' y' ∧ x'.2.store.host.1.length = 23 := by
  obtain ⟨hrel, hnoting⟩ := (clumsy true).run_of_pardons (clumsy_records true) clumsy_pardons
    clumsySetup_ignores 9 (.plant ⟨.empty, [], []⟩ ⟨.empty, .empty⟩ {} false)
  specialize hnoting clumsyNote notes_clumsyNote
  generalize hx : (clumsy true).run 9 clumsySetup _ = x at hrel ⊢
  generalize hy : (clumsy false).run 9 clumsySetup _ = y at hrel ⊢
  generalize hx' : ((clumsy true).noting clumsyNote).run 9 clumsySetup _ = x' at hnoting ⊢
  generalize hy' : ((clumsy false).noting clumsyNote).run 9 clumsySetup _ = y' at hnoting ⊢
  cbv at hx hy hx' hy'
  subst hx hy hx' hy'
  cases hrel with
  | some hsame =>
    cases hnoting with
    | some hnoted =>
      exact ⟨_, _, _, _, rfl, rfl, hsame, rfl, rfl, rfl, rfl, rfl, hnoted, rfl⟩

end DataBinding
