import DataBinding.Proofs.Coverage

/-!
# Watchers that come during a digest

A watcher that is registered during a digest makes the passes forget where they could end early, so
that the next pass should come to it.  But a watcher that is found dirty later in the same pass is
marked again, and then the next pass may end there, before the turn of the newcomer.

That does no harm if the pass itself came to the newcomer.  It does so if the scope of the newcomer
was there when the pass began: either the scope was still ahead, or the newcomer has its turn before
the mark.  Only a scope that was made during the pass, under a parent whose children had already
been listed, is missed.

`Engine.LastDirty` is the last pass of some rounds that found anything dirty.  A digest that settles
misses a watcher just if its last pass was ended before the turn of the watcher, and the scope of
the watcher was made during the last dirty pass, which did not come to it
(`Host.unchecked_iff_of_settled`).
-/

namespace DataBinding

open Compute (runOn runOn_bind_cases)
open DataBinding.Tree (Interlude Checked Unchecked Surveyed Later)

variable {κ σ : Type}

namespace Engine

variable {E : Engine κ σ} {s : ScopeId} {t u u' v z : Tree κ σ} {phase : Phase} {n : ℕ}

/-! ## The last dirty pass -/

/-- Rounds that find nothing dirty. -/
inductive Lull (E : Engine κ σ) (s : ScopeId) : Tree κ σ → Tree κ σ → Prop
  | none (t : Tree κ σ) : Lull E s t t
  | more {t u v : Tree κ σ} (hround : E.Round s false t u) (hrest : Lull E s u v) : Lull E s t v

/-- The last pass of some rounds from `t` to `v` that found anything dirty leads from `u` to
`u'`. -/
structure LastDirty (E : Engine κ σ) (s : ScopeId) (t u u' v : Tree κ σ) : Prop where
  before : ∃ n r, E.Rounds s n t r ∧ runOn (E.drain .async) r = some (.ok (), u)
  pass : runOn (E.pass s) u = some (.ok true, u')
  after : E.Lull s u' v

/-- Some rounds are a lull, or there is a last pass among them that found anything dirty. -/
lemma Rounds.lull_or_lastDirty (h : E.Rounds s n t v) :
    E.Lull s t v ∨ ∃ u u', E.LastDirty s t u u' v := by
  induction h with
  | none t => exact .inl (.none t)
  | @more dirty n t r v hround hunsettled hrest ih =>
    rcases ih with hlull | ⟨u, u', ⟨k, r', hrounds, hdrain⟩, hpass, hlull⟩
    · cases dirty with
      | false => exact .inl (.more hround hlull)
      | true =>
        obtain ⟨w, hdrain, hpass⟩ := hround
        exact .inr ⟨w, r, ⟨0, t, .none t, hdrain⟩, hpass, hlull⟩
    · exact .inr ⟨u, u', ⟨k + 1, r', .more hround hunsettled hrounds, hdrain⟩, hpass, hlull⟩

section Governed

variable (hE : E.Governed)

include hE

lemma unchecked_drain (q : Queue) (hphase : t.phase = some phase)
    (h : runOn (E.drain q) t = some (.ok (), u)) :
    u.phase = some phase ∧ Interlude t u ∧ Unchecked t u := by
  obtain ⟨huphase, htu⟩ := inPhase_drain hE q h phase hphase
  have hnone := leads_drain Tree.drains_unchecked.inPhase
    (hE.inPhase Tree.drains_unchecked.toDefers) q h phase hphase
  exact ⟨huphase, htu, hnone.2⟩

lemma surveyed_pass {dirty : Bool} (ht : t.Sound) (hphase : t.phase = some phase)
    (h : runOn (E.pass s) t = some (.ok dirty, u)) :
    u.phase = some phase ∧ (dirty = false → Interlude t u) ∧ Surveyed t u := by
  obtain ⟨huphase, htu⟩ := inPhase_pass hE s h phase hphase
  obtain ⟨ended, -, hcovers, -⟩ := covers_pass hE ht hphase h
  have hu := hcovers u 0 (refl_of Later u) (htu.sound ht)
  exact ⟨huphase, hu.quiet, hu.toSurveyed⟩

/-- A round checks watchers that there are, and it is an interlude if it finds nothing dirty. -/
lemma Round.surveyed {dirty : Bool} (ht : t.Sound) (hphase : t.phase = some phase)
    (h : E.Round s dirty t u) :
    u.phase = some phase ∧ (dirty = false → Interlude t u) ∧ Surveyed t u := by
  obtain ⟨v, hdrain, hpass⟩ := h
  obtain ⟨hvphase, htv, hnone⟩ := unchecked_drain hE .async hphase hdrain
  obtain ⟨huphase, hquiet, hvu⟩ := surveyed_pass hE (htv.sound ht) hvphase hpass
  exact ⟨huphase, fun hclean => trans_of Interlude htv (hquiet hclean),
    trans_of Surveyed (.of_unchecked htv.toGrows hnone) hvu⟩

lemma Rounds.surveyed (ht : t.Sound) (hphase : t.phase = some phase) (h : E.Rounds s n t u) :
    u.phase = some phase ∧ Surveyed t u := by
  induction h with
  | none t => exact ⟨hphase, refl_of Surveyed t⟩
  | more hround _ _ ih =>
    obtain ⟨hvphase, -, htv⟩ := hround.surveyed hE ht hphase
    obtain ⟨huphase, hvu⟩ := ih (htv.sound ht) hvphase
    exact ⟨huphase, trans_of Surveyed htv hvu⟩

lemma Lull.interlude (ht : t.Sound) (hphase : t.phase = some phase) (h : E.Lull s t u) :
    Interlude t u ∧ Surveyed t u := by
  induction h with
  | none t => exact ⟨refl_of Interlude t, refl_of Surveyed t⟩
  | more hround _ ih =>
    obtain ⟨hvphase, hquiet, htv⟩ := hround.surveyed hE ht hphase
    have hinterlude := hquiet rfl
    obtain ⟨hvu, hsurveyed⟩ := ih (htv.sound ht) hvphase
    exact ⟨trans_of Interlude hinterlude hvu, trans_of Surveyed htv hsurveyed⟩

lemma LastDirty.surveyed (ht : t.Sound) (hphase : t.phase = some phase)
    (h : E.LastDirty s t u u' v) :
    u.phase = some phase ∧ Surveyed t u ∧ Surveyed u u' ∧ Interlude u' v ∧ Surveyed u' v := by
  obtain ⟨⟨n, r, hrounds, hdrain⟩, hpass, hlull⟩ := h
  obtain ⟨hrphase, htr⟩ := hrounds.surveyed hE ht hphase
  obtain ⟨huphase, hru, hnone⟩ := unchecked_drain hE .async hrphase hdrain
  have htu := trans_of Surveyed htr (.of_unchecked hru.toGrows hnone)
  obtain ⟨huphase', -, huu'⟩ := surveyed_pass hE (htu.sound ht) huphase hpass
  exact ⟨huphase, htu, huu', hlull.interlude hE (huu'.sound (htu.sound ht)) huphase'⟩

/-! ## Watchers that are missed -/

/-- After a last pass that finds nothing dirty, the watchers that have turns and were registered
before that pass have all been checked, but for those that were missed. -/
lemma unchecked_iff_of_rounds {t₀ t₁ : Tree κ σ} (h₀ : t₀.Sound)
    (hphase : t₀.phase = some phase) (hmark : t₀.lastDirty = none) (hopening : Unchecked t t₀)
    (hrounds : E.Rounds s n t₀ t₁) (hdrain : runOn (E.drain .async) t₁ = some (.ok (), v))
    (hpass : runOn (E.pass s) v = some (.ok false, z)) : ∃ ended,
    runOn (Routine.walk E.visitScope E.limit s) (v.note (.pass s)) =
      some (.ok ⟨false, ended⟩, z) ∧ Interlude v z ∧
    ∀ w ∈ z.turns s, w < v.watchers.size → (¬ Checked t z w ↔ ended = true ∧ z.Behind s w ∧
      ∃ u u', E.LastDirty s t₀ u u' t₁ ∧ u.scopes.size ≤ z.home w ∧ z.home w < u'.scopes.size ∧
        ¬ Checked u v w) := by
  obtain ⟨hphase₁, ht₁⟩ := hrounds.surveyed hE h₀ hphase
  have h₁ := ht₁.sound h₀
  obtain ⟨hvphase, hinterlude, hnone⟩ := unchecked_drain hE .async hphase₁ hdrain
  have ht₁v : Surveyed t₁ v := .of_unchecked hinterlude.toGrows hnone
  have hv := ht₁v.sound h₁
  obtain ⟨-, hquiet, hvz⟩ := surveyed_pass hE hv hvphase hpass
  have hz := hvz.sound hv
  obtain ⟨ended, hwalk, hcovers, hmarked⟩ := covers_pass hE hv hvphase hpass
  have hlast := fun x => hcovers z x (refl_of Later z) hz
  have h₀v := trans_of Surveyed ht₁ ht₁v
  refine ⟨ended, hwalk, hquiet rfl, fun w hturn hsize => ?_⟩
  have hhome := hvz.later.home_lt hz hsize hturn
  rw [hopening.checked_iff (h₀v.journal.trans hvz.journal)]
  constructor
  · intro hnot
    have hnotv : ¬ Checked v z w := fun h => hnot (h.before h₀v.journal)
    cases hended : ended with
    | false => exact absurd ((hlast 0).all hended w hturn hturn hsize hhome) hnotv
    | true =>
      obtain ⟨x, hx, hxturn⟩ := hmarked rfl hended
      have hbehind : [x, w].Sublist (z.turns s) := by
        by_contra hsub
        exact hnotv ((((hlast x).ended hended ⟨hx, hxturn⟩).2 w hturn hturn hsize hhome).2 hsub)
      -- the mark has been there since the last dirty pass
      obtain ⟨hxv, hkept⟩ := (hquiet rfl).of_mark hx
      obtain ⟨hx₁, hkept₁⟩ := hinterlude.of_mark hxv
      rcases hrounds.lull_or_lastDirty with hlull | ⟨u, u', hdirty⟩
      · have hx₀ := ((hlull.interlude hE h₀ hphase).1.of_mark hx₁).1
        cases hmark.symm.trans hx₀
      obtain ⟨huphase, ht₀u, huu', hinterlude', hu't₁⟩ := hdirty.surveyed hE h₀ hphase
      obtain ⟨hx', hkept'⟩ := hinterlude'.of_mark hx₁
      have hu'v := trans_of Surveyed hu't₁ ht₁v
      have hsize' : w < u'.watchers.size := by
        rw [← hkept'.size, ← hkept₁.size]
        exact hsize
      have hu'z := hu'v.later.trans hvz.later
      have hnot' : ¬ Checked u v w := fun h =>
        hnot ((h.before ht₀u.journal).after hvz.journal)
      refine ⟨rfl, ⟨x, hx, hbehind⟩, u, u', hdirty, ?_, hu'z.home_lt hz hsize' hturn, hnot'⟩
      by_contra hold
      obtain ⟨_, -, hcovers', -⟩ := covers_pass hE (ht₀u.sound h₀) huphase hdirty.pass
      have hchecked := (hcovers' z x hu'z hz).behind rfl ⟨hx', hxturn⟩ w hturn hbehind
        (not_le.1 hold) hsize'
      exact hnot' (hchecked.after hu'v.journal)
  · rintro ⟨hended, ⟨x, hx, hsub⟩, u, u', hdirty, hnew, -, hnot⟩ hchecked
    obtain ⟨-, ht₀u, huu', -, hu't₁⟩ := hdirty.surveyed hE h₀ hphase
    have huv := trans_of Surveyed huu' (trans_of Surveyed hu't₁ ht₁v)
    rcases hchecked.split h₀v.journal hvz.journal with hearly | hlate
    · rcases hearly.split ht₀u.journal huv.journal with hbefore | hafter
      · -- before that pass there was no such watcher
        have hfresh := (huv.later.trans hvz.later).fresh _ hnew w (hz.mem_watchers_home hturn).2
        exact absurd (ht₀u.known w hbefore) (not_lt.2 hfresh)
      · exact hnot hafter
    · have hxturn : x ∈ z.turns s := hsub.subset (by simp)
      exact (((hlast x).ended hended ⟨hx, hxturn⟩).2 w hturn hturn hsize hhome).1 hlate hsub

end Governed

end Engine

/-- A digest that settles checks the watchers that have turns in the end and were registered before
its last pass, which calls no listener, unless it misses them.  It misses those behind the mark at
which the last pass was ended whose scope was made during the last dirty pass and which that pass
did not come to. -/
theorem Host.unchecked_iff_of_settled (H : Host κ σ) {limit ttl : ℕ} {s : ScopeId} {t z : Tree κ σ}
    (ht : t.Sound) (h : runOn ((H.engine limit).loop s) t = some (.ok (true, ttl), z)) :
    ∃ n t₀ t₁ v ended, runOn (H.engine limit).opening t = some (.ok (), t₀) ∧
      (H.engine limit).Rounds s n t₀ t₁ ∧
      runOn ((H.engine limit).drain .async) t₁ = some (.ok (), v) ∧
      runOn (Routine.walk (H.engine limit).visitScope limit s) (v.note (.pass s)) =
        some (.ok ⟨false, ended⟩, z) ∧ Interlude v z ∧
      ∀ w ∈ z.turns s, w < v.watchers.size → (¬ Checked t z w ↔ ended = true ∧ z.Behind s w ∧
        ∃ u u', (H.engine limit).LastDirty s t₀ u u' t₁ ∧ u.scopes.size ≤ z.home w ∧
          z.home w < u'.scopes.size ∧ ¬ Checked u v w) := by
  have hE := H.governed limit
  rcases runOn_bind_cases h with ⟨e, -, hr⟩ | ⟨_, t₀, hopening, h₁⟩
  · cases hr
  rw [Compute.runOn_read_bind] at h₁
  rcases runOn_bind_cases h₁ with ⟨e, -, hr⟩ | ⟨settled, z', hpasses, hrest⟩
  · cases hr
  cases hrest
  obtain ⟨n, t₁, -, hrounds, ⟨v, hdrain, hpass⟩, -⟩ := Engine.rounds_of_settled hpasses
  obtain ⟨-, hdrain₀⟩ := Engine.drain_of_opening hopening
  obtain ⟨hphase₀, hinterlude₀, hnone⟩ :=
    Engine.unchecked_drain hE .apply (Engine.phase_begun t) hdrain₀
  have hmark : t₀.lastDirty = none := by
    rcases hinterlude₀.dirty with hnone | ⟨hsame, -⟩
    · exact hnone
    · exact hsame.trans (Engine.lastDirty_begun t)
  have hbegun : Unchecked t t.begun := by
    obtain ⟨_, _, heq⟩ := Engine.begun_cases t
    exact .of_step (congrArg Tree.journal heq) fun _ h => nomatch h
  have h₀ := hinterlude₀.sound (ht.of_frame (Engine.frame_begun t))
  obtain ⟨ended, hwalk, hiff⟩ := Engine.unchecked_iff_of_rounds hE h₀ hphase₀ hmark
    (trans_of Unchecked hbegun hnone) hrounds hdrain hpass
  exact ⟨n, t₀, t₁, v, ended, hopening, hrounds, hdrain, hwalk, hiff⟩

/-! ## A host that is missed out on -/

/-- The procedures of a host that makes scopes. -/
inductive Grower where
  | source
  | grow
  | ignore

/-- A host with a listener that makes a scope under the root and watches a property there. -/
def grower : Host Grower Unit where
  library := ⟨fun _ _ _ => .endless, fun _ _ => .endless⟩
  report := fun _ host => host
  procedure
    | .source, _ => .compute (Store.reading (·.get 0 "source"))
    | .grow, _ => do
      let s ← Program.request (.newChild rootId false rootId)
      discard <| Program.request (.watch s .source .ignore false)
      return .undefined
    | .ignore, _ => return .undefined

/-- Watches a property twice in a child of the root. -/
def growerSetup : Program Grower Unit Unit := do
  let s ← Program.request (.newChild rootId false rootId)
  discard <| Program.request (.watch s .source .ignore false)
  discard <| Program.request (.watch s .source .grow false)

/-- The digest of that host, up to the end of its loop. -/
lemma grower_run : ∃ t, grower.run 9 growerSetup
      (.plant ⟨.empty, ()⟩ ⟨.empty, .empty⟩ {} false) = some (.ok (), t) ∧ t.watchers.size = 2 ∧
    (∃ u, runOn ((grower.engine 9).digest rootId) t = some (.ok (), u) ∧ 2 ∈ u.turns rootId ∧
      ¬ Checked t u 2) ∧
    ∃ z, runOn ((grower.engine 9).loop rootId) t = some (.ok (true, 10), z) ∧
      z.lastDirty = some 0 ∧ z.watchers.size = 3 ∧ 2 ∈ z.turns rootId ∧ ¬ Checked t z 2 := by
  generalize hx : grower.run 9 growerSetup _ = x
  cbv at hx
  subst hx
  refine ⟨_, rfl, rfl, ?_, ?_⟩
  · generalize hy : runOn _ _ = y
    cbv at hy
    subst hy
    refine ⟨_, rfl, ?_, ?_⟩
    · cbv
      exact .tail _ (.tail _ (.head _))
    · rintro ⟨steps, heq, hmem⟩
      have hchecked := heq ▸ List.mem_append_left _ hmem
      simp at hchecked
  · generalize hy : runOn _ _ = y
    cbv at hy
    subst hy
    refine ⟨_, rfl, rfl, rfl, ?_, ?_⟩
    · cbv
      exact .tail _ (.tail _ (.head _))
    · rintro ⟨steps, heq, hmem⟩
      have hchecked := heq ▸ List.mem_append_left _ hmem
      simp at hchecked

/-- A digest can end without a check of a watcher that a listener registered in its course. -/
theorem grower_misses : ∃ t, grower.run 9 growerSetup
      (.plant ⟨.empty, ()⟩ ⟨.empty, .empty⟩ {} false) = some (.ok (), t) ∧
    ∃ u, runOn ((grower.engine 9).digest rootId) t = some (.ok (), u) ∧
      ¬ ∀ w ∈ u.turns rootId, t.watchers.size ≤ w → Checked t u w := by
  obtain ⟨t, hsetup, hsize, ⟨u, hdigest, hturn, hnot⟩, -⟩ := grower_run
  exact ⟨t, hsetup, u, hdigest, fun hall => hnot (hall 2 hturn hsize.le)⟩

/-- That watcher is behind the mark, and its scope was made during the last dirty pass. -/
theorem grower_adds_behind : ∃ t t₀ t₁ z u u', grower.run 9 growerSetup
      (.plant ⟨.empty, ()⟩ ⟨.empty, .empty⟩ {} false) = some (.ok (), t) ∧
    runOn ((grower.engine 9).loop rootId) t = some (.ok (true, 10), z) ∧ z.Behind rootId 2 ∧
    (grower.engine 9).LastDirty rootId t₀ u u' t₁ ∧ u.scopes.size ≤ z.home 2 ∧
    z.home 2 < u'.scopes.size := by
  obtain ⟨t, hsetup, -, -, z, hloop, hmark, hsize, hturn, hnot⟩ := grower_run
  have hsound := Host.sound_of_run hsetup (Tree.sound_plant ..)
  obtain ⟨_, t₀, t₁, v, _, -, -, -, -, hlast, hiff⟩ := grower.unchecked_iff_of_settled hsound hloop
  have hv : 2 < v.watchers.size := by
    rw [← (hlast.of_mark hmark).2.size, hsize]
    exact Nat.lt_succ_self 2
  obtain ⟨-, hbehind, u, u', hdirty, hnew, hhome, -⟩ := (hiff 2 hturn hv).1 hnot
  exact ⟨t, t₀, t₁, z, u, u', hsetup, hloop, hbehind, hdirty, hnew, hhome⟩

end DataBinding
