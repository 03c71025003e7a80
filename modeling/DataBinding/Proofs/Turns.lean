import DataBinding.Proofs.Descendants

/-!
# The order of turns

A pass walks from a scope down and checks the watchers of each scope on the way.  As long as the
frame of the tree stays as it is, the watchers have their turns in one fixed order, `Tree.turns`,
and a walk is a sequence of visits in that order (`Routine.run_inOrder_of_walk`).

A walk is held to a number of levels; one that was not ended has seen that the descendants of its
scope fit into them (`Routine.fits_of_walk`).
-/

namespace DataBinding

open Compute (Leads runOn runOn_bind_cases)

variable {κ σ : Type}

/-- In a list without repetitions the elements after `x` are the ones behind it. -/
lemma pair_sublist_iff {α : Type} {x w : α} {l₁ l₂ : List α} (h : (l₁ ++ x :: l₂).Nodup) :
    [x, w].Sublist (l₁ ++ x :: l₂) ↔ w ∈ l₂ := by
  constructor
  · intro hsub
    induction l₁ with
    | nil =>
      cases hsub with
      | cons _ hsub => exact absurd (hsub.subset (List.mem_cons_self ..)) (List.nodup_cons.1 h).1
      | cons_cons _ hsub => exact List.singleton_sublist.1 hsub
    | cons y l₁ ih =>
      rw [List.cons_append, List.nodup_cons] at h
      cases hsub with
      | cons _ hsub => exact ih h.2 hsub
      | cons_cons => exact absurd (List.mem_append_right _ (List.mem_cons_self ..)) h.1
  · intro hw
    have hlast : [x, w].Sublist (x :: l₂) := (List.singleton_sublist.2 hw).cons_cons x
    exact hlast.trans (List.sublist_append_right _ _)

namespace Tree

variable {t u : Tree κ σ} {a b c s : ScopeId} {w x : WatcherId} {d : ℕ}

/-- The watchers of a scope and its descendants within so many levels, in the order of their
turns. -/
def turnsWithin (t : Tree κ σ) : ℕ → ScopeId → List WatcherId
  | 0, _ => []
  | d + 1, s => (t.scope s).watchers ++ (t.scope s).children.flatMap (t.turnsWithin d)

/-- The watchers of a scope and its descendants in the order of their turns.  A child has a higher
number than its parent, so the number of scopes bounds the levels. -/
def turns (t : Tree κ σ) (s : ScopeId) : List WatcherId := t.turnsWithin t.scopes.size s

/-- The watcher has its turn after the watcher that was found dirty last. -/
def Behind (t : Tree κ σ) (s : ScopeId) (w : WatcherId) : Prop :=
  ∃ x, t.lastDirty = some x ∧ [x, w].Sublist (t.turns s)

lemma turnsWithin_of_size_le (h : t.scopes.size ≤ s) : t.turnsWithin d s = [] := by
  cases d with
  | zero => rfl
  | succ d => simp [turnsWithin, scope_of_size_le h]

/-! ## Turns -/

/-- The turns go through the descendants one by one. -/
lemma turnsWithin_eq_flatMap (t : Tree κ σ) (d : ℕ) (s : ScopeId) :
    t.turnsWithin d s = (t.descendantsWithin d s).flatMap fun b => (t.scope b).watchers := by
  induction d generalizing s with
  | zero => rfl
  | succ d ih =>
    rw [turnsWithin, descendantsWithin, List.flatMap_cons, List.flatMap_assoc]
    exact congrArg _ (List.flatMap_congr fun c _ => ih c)

namespace Sound

lemma turnsWithin_eq (h : t.Sound) {d' : ℕ} (hd : t.scopes.size ≤ s + d)
    (hd' : t.scopes.size ≤ s + d') : t.turnsWithin d s = t.turnsWithin d' s := by
  induction d generalizing d' s with
  | zero =>
    have hs : t.scopes.size ≤ s := hd
    rw [turnsWithin_of_size_le hs, turnsWithin_of_size_le hs]
  | succ d ih =>
    cases d' with
    | zero =>
      have hs : t.scopes.size ≤ s := hd'
      rw [turnsWithin_of_size_le hs, turnsWithin_of_size_le hs]
    | succ d' =>
      have hchildren : (t.scope s).children.flatMap (t.turnsWithin d) =
          (t.scope s).children.flatMap (t.turnsWithin d') := by
        refine List.flatMap_congr fun c hc => ?_
        have hlt := (h.child hc).1
        exact ih (by omega) (by omega)
      simp only [turnsWithin, hchildren]

/-- First the watchers of the scope have their turns, and then those of its children. -/
lemma turns_eq (h : t.Sound) (s : ScopeId) :
    t.turns s = (t.scope s).watchers ++ (t.scope s).children.flatMap t.turns := by
  have hlevels : t.turnsWithin t.scopes.size s = t.turnsWithin (t.scopes.size + 1) s :=
    h.turnsWithin_eq (Nat.le_add_left _ _) (by omega)
  exact hlevels

end Sound

lemma exists_scope_of_mem_turnsWithin (h : w ∈ t.turnsWithin d s) :
    ∃ b, t.Under s b ∧ w ∈ (t.scope b).watchers := by
  rw [turnsWithin_eq_flatMap] at h
  obtain ⟨b, hb, hw⟩ := List.mem_flatMap.1 h
  exact ⟨b, under_of_mem_descendantsWithin hb, hw⟩

namespace Sound

/-- The watchers that have turns are those of the scope and of its descendants. -/
lemma mem_turns (h : t.Sound) : w ∈ t.turns s ↔ ∃ b, t.Under s b ∧ w ∈ (t.scope b).watchers := by
  refine ⟨exists_scope_of_mem_turnsWithin, ?_⟩
  rintro ⟨b, hsb, hb⟩
  induction hsb using Relation.ReflTransGen.head_induction_on with
  | refl =>
    rw [h.turns_eq]
    exact List.mem_append_left _ hb
  | head hc _ ih =>
    rw [h.turns_eq]
    exact List.mem_append_right _ (List.mem_flatMap.2 ⟨_, hc, ih⟩)

lemma nodup_watchers (h : t.Sound) (s : ScopeId) : (t.scope s).watchers.Nodup :=
  (h.watchers_sorted s).imp fun hlt => ne_of_gt hlt

/-- Every watcher has one turn. -/
lemma nodup_turnsWithin (h : t.Sound) (d : ℕ) (s : ScopeId) : (t.turnsWithin d s).Nodup := by
  rw [turnsWithin_eq_flatMap, List.nodup_flatMap]
  refine ⟨fun b _ => h.nodup_watchers b, ?_⟩
  refine (h.nodup_descendantsWithin d s).imp fun hne w hw hw' => hne ?_
  exact h.scope_unique hw hw'

lemma nodup_turns (h : t.Sound) (s : ScopeId) : (t.turns s).Nodup := h.nodup_turnsWithin _ s

lemma isActive_of_mem_turnsWithin (h : t.Sound) (hw : w ∈ t.turnsWithin d s) :
    t.isActive w = true := by
  obtain ⟨b, -, hb⟩ := exists_scope_of_mem_turnsWithin hw
  exact h.isActive hb

end Sound

/-- The levels that a walk sees are all the levels there are. -/
lemma Fits.turnsWithin_eq (hfits : t.Fits d s) (h : t.Sound) : t.turnsWithin d s = t.turns s := by
  induction hfits with
  | level _ ih =>
    rw [h.turns_eq, turnsWithin]
    exact congrArg _ (List.flatMap_congr ih)

/-! ## Frames -/

lemma turnsWithin_of_frame (h : u.frame = t.frame) (d : ℕ) :
    u.turnsWithin d = t.turnsWithin d := by
  induction d with
  | zero => rfl
  | succ d ih =>
    funext s
    simp only [turnsWithin, ih, watchers_of_frame h, children_of_frame h]

lemma turns_of_frame (h : u.frame = t.frame) (s : ScopeId) : u.turns s = t.turns s := by
  rw [turns, turns, size_scopes_of_frame h, turnsWithin_of_frame h]

lemma Fits.of_frame (hfits : t.Fits d s) (h : u.frame = t.frame) : u.Fits d s := by
  induction hfits with
  | level _ ih => exact .level fun c hc => ih c (children_of_frame h _ ▸ hc)

end Tree

/-! ## Walks as sequences of visits -/

namespace Routine

open DataBinding.Tree (Grows Fits)

variable {ι : Type} {visit : WatcherId → Routine κ σ Findings} {t u : Tree κ σ} {s : ScopeId}
  {r : Except Error Findings}

/-- Visits the watchers that a scope has at this moment. -/
def visitAll (visit : WatcherId → Routine κ σ Findings) (s : ScopeId) : Routine κ σ Findings := do
  inOrder visit (← Compute.read fun t => (t.scope s).watchers)

lemma runOn_visitAll (visit : WatcherId → Routine κ σ Findings) (s : ScopeId) (t : Tree κ σ) :
    runOn (visitAll visit s) t = runOn (inOrder visit (t.scope s).watchers) t := by
  rw [visitAll, Compute.runOn_read_bind]

/-- One visit after another: an error ends the whole, and so does a visit that asks for it. -/
lemma runOn_andThen_cases {first second : Routine κ σ Findings}
    (h : runOn (first.andThen second) t = some (r, u)) :
    (∃ e, runOn first t = some (.error e, u) ∧ r = .error e) ∨
      (∃ a, runOn first t = some (.ok a, u) ∧ a.ended = true ∧ r = .ok a) ∨
      ∃ a v r₂, runOn first t = some (.ok a, v) ∧ a.ended = false ∧
        runOn second v = some (r₂, u) ∧ r = r₂.map fun b => ⟨a.dirty || b.dirty, b.ended⟩ := by
  rcases runOn_bind_cases h with h | ⟨a, v, h₁, h₂⟩
  · exact .inl h
  · cases ha : a.ended with
    | true =>
      rw [ha] at h₂
      cases h₂
      exact .inr (.inl ⟨a, h₁, ha, rfl⟩)
    | false =>
      rw [ha] at h₂
      rcases runOn_bind_cases h₂ with ⟨e, h₃, rfl⟩ | ⟨b, u', h₃, h₄⟩
      · exact .inr (.inr ⟨a, v, .error e, h₁, ha, h₃, rfl⟩)
      · cases h₄
        exact .inr (.inr ⟨a, v, .ok b, h₁, ha, h₃, rfl⟩)

lemma runOn_andThen_of_error {first second : Routine κ σ Findings} {e : Error}
    (h : runOn first t = some (.error e, u)) :
    runOn (first.andThen second) t = some (.error e, u) :=
  Compute.runOn_bind_of_error h

lemma runOn_andThen_of_ended {first second : Routine κ σ Findings} {a : Findings}
    (h : runOn first t = some (.ok a, u)) (ha : a.ended = true) :
    runOn (first.andThen second) t = some (.ok a, u) := by
  rw [andThen, Compute.runOn_bind_of_ok h, if_pos ha]
  rfl

lemma runOn_andThen_of_not_ended {first second : Routine κ σ Findings} {a : Findings}
    (h : runOn first t = some (.ok a, u)) (ha : a.ended = false) :
    runOn (first.andThen second) t = (runOn second u).map fun (r, v) =>
      (r.map fun b => ⟨a.dirty || b.dirty, b.ended⟩, v) := by
  rw [andThen, Compute.runOn_bind_of_ok h, if_neg (by simp [ha]), Compute.runOn_bind]
  cases runOn second u with
  | none => rfl
  | some x =>
    obtain ⟨_ | _, _⟩ := x <;> rfl

lemma nil_andThen (m : Routine κ σ Findings) : (pure {} : Routine κ σ Findings).andThen m = m := by
  refine Compute.ext fun t => ?_
  rw [runOn_andThen_of_not_ended (Compute.runOn_pure _ _) rfl]
  cases runOn m t with
  | none => rfl
  | some x => obtain ⟨_ | _, _⟩ := x <;> simp [Except.map]

lemma andThen_assoc (m₁ m₂ m₃ : Routine κ σ Findings) :
    (m₁.andThen m₂).andThen m₃ = m₁.andThen (m₂.andThen m₃) := by
  simp only [andThen, bind_assoc]
  congr 1
  funext a
  cases ha : a.ended with
  | true => simp [ha]
  | false =>
    simp only [Bool.false_eq_true, if_false, bind_assoc, pure_bind]
    congr 1
    funext b
    cases hb : b.ended with
    | true => simp [hb]
    | false => simp [Bool.or_assoc]

lemma inOrder_append (visit : ι → Routine κ σ Findings) (l₁ l₂ : List ι) :
    inOrder visit (l₁ ++ l₂) = (inOrder visit l₁).andThen (inOrder visit l₂) := by
  induction l₁ with
  | nil => exact (nil_andThen _).symm
  | cons x l₁ ih => rw [List.cons_append, inOrder, inOrder, ih, andThen_assoc]

section Frames

variable {first second first' second' : Routine κ σ Findings}

/-- One visit after another runs like other two do, if each runs like the other in the same
frame. -/
lemma runOn_andThen_congr (ht : t.Sound) (hfirst : Leads Grows first)
    (hsecond : Leads Grows second) (h : runOn (first.andThen second) t = some (r, u))
    (hframe : u.frame = t.frame)
    (h₁ : ∀ r₁ v, runOn first t = some (r₁, v) → v.frame = t.frame →
      runOn first' t = some (r₁, v))
    (h₂ : ∀ r₂ v, runOn second v = some (r₂, u) → v.frame = t.frame →
      runOn second' v = some (r₂, u)) :
    runOn (first'.andThen second') t = some (r, u) := by
  rcases runOn_andThen_cases h with ⟨e, hrun, rfl⟩ | ⟨a, hrun, ha, rfl⟩ |
    ⟨a, v, r₂, hrun, ha, hrun', rfl⟩
  · exact runOn_andThen_of_error (h₁ _ u hrun hframe)
  · exact runOn_andThen_of_ended (h₁ _ u hrun hframe) ha
  · have htv := hfirst hrun
    have hvu := hsecond hrun'
    have hmid : v.frame = t.frame :=
      htv.later.frame_eq hvu.later (htv.sound ht) (hvu.sound (htv.sound ht)) hframe
    rw [runOn_andThen_of_not_ended (h₁ _ v hrun hmid) ha, h₂ _ v hrun' hmid]
    rfl

/-- Two visits that were not ended have both come to their ends. -/
lemma runOn_andThen_of_complete {f : Findings} (ht : t.Sound) (hfirst : Leads Grows first)
    (hsecond : Leads Grows second) (h : runOn (first.andThen second) t = some (.ok f, u))
    (hf : f.ended = false) (hframe : u.frame = t.frame) :
    ∃ a v b, runOn first t = some (.ok a, v) ∧ a.ended = false ∧ v.frame = t.frame ∧
      runOn second v = some (.ok b, u) ∧ b.ended = false := by
  rcases runOn_andThen_cases h with ⟨e, -, hr⟩ | ⟨a, -, ha, hr⟩ | ⟨a, v, r₂, hrun, ha, hrun', hr⟩
  · cases hr
  · cases hr
    exact absurd ha (by simp [hf])
  · have htv := hfirst hrun
    have hvu := hsecond hrun'
    have hmid : v.frame = t.frame :=
      htv.later.frame_eq hvu.later (htv.sound ht) (hvu.sound (htv.sound ht)) hframe
    cases r₂ with
    | error e => cases hr
    | ok b =>
      cases hr
      exact ⟨a, v, b, hrun, ha, hmid, hrun', hf⟩

end Frames

section Visits

variable (hvisit : ∀ w, Leads Grows (visit w))

include hvisit

lemma grows_visitAll (s : ScopeId) : Leads Grows (visitAll visit s) :=
  (Leads.read _).bind fun ws => leads_inOrder hvisit ws

lemma grows_walk (d : ℕ) (s : ScopeId) : Leads Grows (walk (visitAll visit) d s) :=
  leads_walk (grows_visitAll hvisit) d s

lemma grows_walkAll (d : ℕ) (cs : List ScopeId) :
    Leads Grows (inOrder (walk (visitAll visit) d) cs) :=
  leads_inOrder (grows_walk hvisit d) cs

lemma run_inOrder_of_walkAll {d : ℕ}
    (hwalk : ∀ {t u : Tree κ σ} {s r}, t.Sound → runOn (walk (visitAll visit) d s) t = some (r, u) →
      u.frame = t.frame → runOn (inOrder visit (t.turnsWithin d s)) t = some (r, u))
    (ht : t.Sound) {cs : List ScopeId}
    (h : runOn (inOrder (walk (visitAll visit) d) cs) t = some (r, u))
    (hframe : u.frame = t.frame) :
    runOn (inOrder visit (cs.flatMap (t.turnsWithin d))) t = some (r, u) := by
  induction cs generalizing t r with
  | nil => exact h
  | cons c cs ih =>
    rw [List.flatMap_cons, inOrder_append]
    refine runOn_andThen_congr ht (grows_walk hvisit d c) (grows_walkAll hvisit d cs) h hframe
      (fun r₁ v => hwalk ht) fun r₂ v hrun hv => ?_
    rw [← Tree.turnsWithin_of_frame hv]
    exact ih (ht.of_frame hv) hrun (hframe.trans hv.symm)

/-- A walk that leaves the frame as it was is a sequence of visits in the order of turns. -/
theorem run_inOrder_of_walk {d : ℕ} (ht : t.Sound)
    (h : runOn (walk (visitAll visit) d s) t = some (r, u)) (hframe : u.frame = t.frame) :
    runOn (inOrder visit (t.turnsWithin d s)) t = some (r, u) := by
  induction d generalizing t u s r with
  | zero => cases h
  | succ d ih =>
    rw [Tree.turnsWithin, inOrder_append]
    have hsecond : Leads Grows (do
        inOrder (walk (visitAll visit) d)
          (← Compute.read fun t : Tree κ σ => (t.scope s).children)) :=
      (Leads.read _).bind fun cs => grows_walkAll hvisit d cs
    refine runOn_andThen_congr ht (grows_visitAll hvisit s) hsecond h hframe ?_ ?_
    · intro r₁ v hrun _
      rwa [runOn_visitAll] at hrun
    · intro r₂ v hrun hv
      rw [Compute.runOn_read_bind, Tree.children_of_frame hv] at hrun
      rw [← Tree.turnsWithin_of_frame hv]
      exact run_inOrder_of_walkAll hvisit ih (ht.of_frame hv) hrun (hframe.trans hv.symm)

lemma run_walkAll_of_inOrder {d : ℕ} {cs : List ScopeId}
    (hwalk : ∀ {t u : Tree κ σ} {s r}, t.Sound → t.Fits d s →
      runOn (inOrder visit (t.turnsWithin d s)) t = some (r, u) → u.frame = t.frame →
      runOn (walk (visitAll visit) d s) t = some (r, u))
    (ht : t.Sound) (hfits : ∀ c ∈ cs, t.Fits d c)
    (h : runOn (inOrder visit (cs.flatMap (t.turnsWithin d))) t = some (r, u))
    (hframe : u.frame = t.frame) :
    runOn (inOrder (walk (visitAll visit) d) cs) t = some (r, u) := by
  induction cs generalizing t r with
  | nil => exact h
  | cons c cs ih =>
    rw [List.flatMap_cons, inOrder_append] at h
    refine runOn_andThen_congr ht (leads_inOrder hvisit _) (leads_inOrder hvisit _) h hframe
      (fun r₁ v => hwalk ht (hfits c (List.mem_cons_self ..))) fun r₂ v hrun hv => ?_
    rw [← Tree.turnsWithin_of_frame hv] at hrun
    exact ih (ht.of_frame hv) (fun c' hc' => (hfits c' (List.mem_cons_of_mem _ hc')).of_frame hv)
      hrun (hframe.trans hv.symm)

/-- Visits in the order of turns that leave the frame as it was are a walk, if the walk goes down
far enough. -/
theorem run_walk_of_inOrder {d : ℕ} (ht : t.Sound) (hfits : t.Fits d s)
    (h : runOn (inOrder visit (t.turnsWithin d s)) t = some (r, u)) (hframe : u.frame = t.frame) :
    runOn (walk (visitAll visit) d s) t = some (r, u) := by
  induction d generalizing t u s r with
  | zero => cases hfits
  | succ d ih =>
    rw [Tree.turnsWithin, inOrder_append] at h
    obtain ⟨hfits⟩ := hfits
    refine runOn_andThen_congr ht (leads_inOrder hvisit _) (leads_inOrder hvisit _) h hframe ?_ ?_
    · intro r₁ v hrun _
      rwa [runOn_visitAll]
    · intro r₂ v hrun hv
      rw [Compute.runOn_read_bind, Tree.children_of_frame hv]
      rw [← Tree.turnsWithin_of_frame hv] at hrun
      exact run_walkAll_of_inOrder hvisit ih (ht.of_frame hv) (fun c hc => (hfits c hc).of_frame hv)
        hrun (hframe.trans hv.symm)

lemma fits_of_walkAll {d : ℕ} {cs : List ScopeId} {f : Findings}
    (hwalk : ∀ {t u : Tree κ σ} {s f}, t.Sound →
      runOn (walk (visitAll visit) d s) t = some (.ok f, u) → f.ended = false →
      u.frame = t.frame → t.Fits d s)
    (ht : t.Sound) (h : runOn (inOrder (walk (visitAll visit) d) cs) t = some (.ok f, u))
    (hf : f.ended = false) (hframe : u.frame = t.frame) : ∀ c ∈ cs, t.Fits d c := by
  induction cs generalizing t f with
  | nil => exact fun c hc => nomatch hc
  | cons c cs ih =>
    obtain ⟨a, v, b, hrun, ha, hv, hrun', hb⟩ := runOn_andThen_of_complete ht
      (grows_walk hvisit d c) (grows_walkAll hvisit d cs) h hf hframe
    have hrest := ih (ht.of_frame hv) hrun' hb (hframe.trans hv.symm)
    rw [List.forall_mem_cons]
    exact ⟨hwalk ht hrun ha hv, fun c' hc' => (hrest c' hc').of_frame hv.symm⟩

/-- A walk that came to its end has seen all levels. -/
lemma fits_of_walk {d : ℕ} {f : Findings} (ht : t.Sound)
    (h : runOn (walk (visitAll visit) d s) t = some (.ok f, u)) (hf : f.ended = false)
    (hframe : u.frame = t.frame) : t.Fits d s := by
  induction d generalizing t u s f with
  | zero => cases h
  | succ d ih =>
    have hsecond : Leads Grows (do
        inOrder (walk (visitAll visit) d)
          (← Compute.read fun t : Tree κ σ => (t.scope s).children)) :=
      (Leads.read _).bind fun cs => grows_walkAll hvisit d cs
    obtain ⟨a, v, b, -, -, hv, hrun, hb⟩ := runOn_andThen_of_complete ht
      (grows_visitAll hvisit s) hsecond h hf hframe
    rw [Compute.runOn_read_bind, Tree.children_of_frame hv] at hrun
    refine .level fun c hc => ?_
    have hfits := fits_of_walkAll hvisit ih (ht.of_frame hv) hrun hb (hframe.trans hv.symm) c hc
    exact hfits.of_frame hv.symm

end Visits

end Routine

end DataBinding
