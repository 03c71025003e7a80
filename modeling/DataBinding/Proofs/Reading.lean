import DataBinding.Proofs.Literals

/-!
# Reading writes nothing

An expression without assignments and without calls reads (`Expr.Reads`).  Whatever comes of an
evaluation of it, a value or an error, every container that was there before is left exactly as it
was: the containers that the evaluation makes are fresh ones, and no others are written
(`Expr.Reads.spares`, `Expression.reading_keeps`).  A path does not even make any.

A step spares a heap if it leaves its containers alone (`Store.Spares`).  This is a preorder, so it
is checked for the elementary steps only, with one exception: the properties of an object literal
are written to an object, and this has to be one that is not in the heap to be spared.
-/

namespace DataBinding

open Compute (Leads runOn)

variable {σ α : Type}

/-! ## Sparing a heap -/

/-- If the first store has the containers of the heap as they are, so has the second. -/
def Store.Spares (b : Heap) (s t : Store σ) : Prop := b.Keeps s.heap → b.Keeps t.heap

/-- Whatever the filter is applied to, it leaves the containers of the heap alone. -/
def Library.Spares (lib : Library σ) (b : Heap) (behaviour : String) : Prop :=
  ∀ args, Leads (Store.Spares b) (lib.filter behaviour args)

namespace Store

variable {b : Heap}

instance : IsPreorder (Store σ) (Spares b) where
  refl _ := id
  trans _ _ _ hst htu := htu ∘ hst

lemma spares_newArray (items : Array Value) :
    Leads (Spares b) (making (·.newArray items) : Compute (Store σ) ℕ) :=
  .alter fun s hs => hs.trans (s.heap.keeps_newArray items)

lemma spares_setOwn {o : ℕ} (ho : b.objects.size ≤ o) (key : String) (v : Value) :
    Leads (Spares b) (changing (·.setOwn o key v) : Compute (Store σ) Unit) :=
  .change fun _ hs => hs.setOwn ho key v

/-- A fresh object is not of the heap, so what follows may write to it. -/
lemma spares_newObject_bind {f : ℕ → Compute (Store σ) α}
    (hf : ∀ o, b.objects.size ≤ o → Leads (Spares b) (f o)) :
    Leads (Spares b) (making (·.newObject .empty none) >>= f) := by
  intro s r t hrun hs
  rw [Compute.runOn_bind_of_ok (runOn_making _ s)] at hrun
  exact hf _ hs.size_objects_le hrun (hs.trans (s.heap.keeps_newObject .empty none))

end Store

lemma Env.spares_applyFilter {env : Env} {b : Heap} {lib : Library σ}
    (hlib : ∀ name behaviour, env.filters.lookup name = some behaviour → lib.Spares b behaviour)
    (name : String) (args : List Value) :
    Leads (Store.Spares b) (env.applyFilter lib name args) := by
  unfold applyFilter
  split
  · next behaviour hlookup => exact hlib name behaviour hlookup args
  · exact .throw _

/-! ## Expressions that read -/

namespace Expr

/-- The expression is a name, `this` or `$locals`. -/
def IsRoot (e : Expr) : Prop := e.IsName ∨ e = .this ∨ e = .locals

/-- The expression has no assignment in it, and no call but those of filters. -/
abbrev Reads (e : Expr) : Prop := e.MadeOf IsRoot

variable {stateful : String → Bool} {lib : Library σ} {env : Env} {b : Heap} {e p : Expr}

lemma Composed.reads (he : e.Composed) : e.Reads := he.madeOf.mono fun _ => .inl

/-- What is watched of an expression that reads, reads. -/
lemma Reads.of_mem_watched (he : e.Reads) (hp : p ∈ (e.watch stateful).watched) : p.Reads := by
  refine MadeOf.of_mem_watched (fun e he p hp => ?_) he hp
  rcases he with ⟨s, rfl⟩ | rfl | rfl
  · obtain rfl := List.mem_singleton.1 hp
    exact .part (.inl ⟨s, rfl⟩)
  · cases hp
  · cases hp

lemma spares_evalList {l : List Expr}
    (hl : ∀ e ∈ l, Leads (Store.Spares b) (e.eval lib env .read)) :
    Leads (Store.Spares b) (evalList lib env l) := by
  induction l with
  | nil =>
    rw [evalList]
    exact .pure _
  | cons e l ih =>
    rw [evalList]
    exact (hl e (.head _)).bind fun _ =>
      (ih fun e he => hl e (.tail _ he)).bind fun _ => .pure _

lemma spares_evalProperties {l : List (PropertyKey × Expr)} {o : ℕ} (ho : b.objects.size ≤ o)
    (hl : ∀ x ∈ l, Leads (Store.Spares b) (x.2.eval lib env .read)) :
    Leads (Store.Spares b) (evalProperties lib env o l) := by
  induction l with
  | nil =>
    rw [evalProperties]
    exact .pure _
  | cons x l ih =>
    obtain ⟨key, e⟩ := x
    rw [evalProperties]
    exact (hl _ (.head _)).bind fun v => (Store.spares_setOwn ho key.text v).bind fun _ =>
      ih fun x hx => hl x (.tail _ hx)

/-- Whatever comes of the evaluation of an expression that reads, it leaves a heap alone that its
filters leave alone. -/
lemma Reads.spares (he : e.Reads)
    (hlib : ∀ name behaviour, env.filters.lookup name = some behaviour → lib.Spares b behaviour) :
    Leads (Store.Spares b) (e.eval lib env .read) := by
  induction he with
  | part he =>
    rcases he with ⟨s, rfl⟩ | rfl | rfl
    · simp only [eval, locate]
      exact (env.unchanged_locateName s).of_eq.bind fun _ => .pure _
    · rw [eval]
      exact .pure _
    · rw [eval]
      exact .pure _
  | literal l =>
    rw [eval]
    exact .pure _
  | array _ ih =>
    rw [eval]
    exact (spares_evalList ih).bind fun _ => (Store.spares_newArray _).bind fun _ => .pure _
  | object _ ih =>
    rw [eval]
    exact Store.spares_newObject_bind fun o ho =>
      (spares_evalProperties ho ih).bind fun _ => .pure _
  | member _ key ih =>
    simp only [eval, locate, bind_assoc]
    exact ih.bind fun v => (env.unchanged_locateMember .read v key).of_eq.bind fun _ => .pure _
  | element _ _ ihbase ihkey =>
    simp only [eval, locate, bind_assoc]
    exact ihbase.bind fun v => ihkey.bind fun k =>
      (Store.unchanged_readingEndless _).of_eq.bind fun text =>
        (env.unchanged_locateMember .read v text).of_eq.bind fun _ => .pure _
  | filter name _ _ ihinput ihargs =>
    rw [eval]
    exact ihinput.bind fun _ => (spares_evalList ihargs).bind fun _ =>
      Env.spares_applyFilter hlib name _
  | unary op _ ih =>
    rw [eval]
    exact ih.bind fun _ => (Store.unchanged_readingEndless _).of_eq
  | binary op _ _ ihleft ihright =>
    rw [eval]
    exact ihleft.bind fun _ => ihright.bind fun _ => (Store.unchanged_readingEndless _).of_eq
  | logical op _ _ ihleft ihright =>
    cases op with
    | and =>
      rw [eval]
      refine ihleft.bind fun v => ?_
      split
      · exact ihright
      · exact .pure v
    | or =>
      rw [eval]
      refine ihleft.bind fun v => ?_
      split
      · exact .pure v
      · exact ihright
  | conditional _ _ _ ihtest ihconsequent ihalternate =>
    rw [eval]
    refine ihtest.bind fun v => ?_
    split
    · exact ihconsequent
    · exact ihalternate

/-- One statement after another is read. -/
lemma spares_evalStatements {l : List Expr}
    (hl : ∀ e ∈ l, Leads (Store.Spares b) (e.eval lib env .read)) (last : Value) :
    Leads (Store.Spares b) (evalStatements lib env last l) := by
  induction l generalizing last with
  | nil =>
    rw [evalStatements]
    exact .pure _
  | cons e l ih =>
    rw [evalStatements]
    exact (hl e (.head _)).bind fun v => ih (fun e he => hl e (.tail _ he)) v

/-! ### What has been evaluated on the way to a value -/

variable {s t : Store σ} {v : Value}

lemma exists_run_of_evalList {l : List Expr}
    (hl : ∀ e ∈ l, Leads (Store.Spares b) (e.eval lib env .read)) (hs : b.Keeps s.heap)
    {values : List Value} (hrun : runOn (evalList lib env l) s = some (.ok values, t))
    (he : e ∈ l) : ∃ s₁ t₁ v, b.Keeps s₁.heap ∧
      runOn (e.eval lib env .read) s₁ = some (.ok v, t₁) := by
  induction l generalizing s t values with
  | nil => cases he
  | cons e' l ih =>
    simp only [evalList] at hrun
    obtain ⟨v, u, hv, hrest⟩ := Compute.runOn_bind_ok_cases hrun
    obtain ⟨rest, t', hlist, -⟩ := Compute.runOn_bind_ok_cases hrest
    rcases List.mem_cons.1 he with rfl | he
    · exact ⟨s, u, v, hs, hv⟩
    · exact ih (fun e he => hl e (.tail _ he)) (hl e' (.head _) hv hs) hlist he

lemma exists_run_of_evalProperties {l : List (PropertyKey × Expr)} {o : ℕ}
    (hl : ∀ x ∈ l, Leads (Store.Spares b) (x.2.eval lib env .read)) (ho : b.objects.size ≤ o)
    (hs : b.Keeps s.heap) {x : Unit}
    (hrun : runOn (evalProperties lib env o l) s = some (.ok x, t)) {y : PropertyKey × Expr}
    (hy : y ∈ l) : ∃ s₁ t₁ v, b.Keeps s₁.heap ∧
      runOn (y.2.eval lib env .read) s₁ = some (.ok v, t₁) := by
  induction l generalizing s with
  | nil => cases hy
  | cons z l ih =>
    obtain ⟨key, e⟩ := z
    simp only [evalProperties] at hrun
    obtain ⟨v, u, hv, hrest⟩ := Compute.runOn_bind_ok_cases hrun
    rw [Compute.runOn_bind_of_ok (Store.runOn_changing _ u)] at hrest
    rcases List.mem_cons.1 hy with rfl | hy
    · exact ⟨s, u, v, hs, hv⟩
    · have hu : b.Keeps u.heap := hl _ (.head _) hv hs
      exact ih (fun x hx => hl x (.tail _ hx)) (hu.setOwn ho key.text v) hrest hy

/-- On the way to the value of an expression that reads, everything that is watched of it has been
evaluated. -/
lemma Reads.exists_run_of_mem_watched (he : e.Reads)
    (hspares : ∀ e : Expr, e.Reads → Leads (Store.Spares b) (e.eval lib env .read))
    (hp : p ∈ (e.watch stateful).watched) (hs : b.Keeps s.heap)
    (hrun : runOn (e.eval lib env .read) s = some (.ok v, t)) :
    ∃ s₁ t₁ x, b.Keeps s₁.heap ∧ runOn (p.eval lib env .read) s₁ = some (.ok x, t₁) := by
  induction he generalizing s t v with
  | part he =>
    rcases he with ⟨name, rfl⟩ | rfl | rfl
    · obtain rfl := List.mem_singleton.1 hp
      exact ⟨s, t, v, hs, hrun⟩
    · cases hp
    · cases hp
  | literal l => cases hp
  | array hitems ih =>
    rw [watch, watchList_eq, mem_watched_union_iff] at hp
    obtain ⟨w, hw, -, hp⟩ := hp
    obtain ⟨e, he, rfl⟩ := List.mem_map.1 hw
    simp only [eval] at hrun
    obtain ⟨values, u, hlist, -⟩ := Compute.runOn_bind_ok_cases hrun
    obtain ⟨s₁, t₁, x, hs₁, hrun₁⟩ :=
      exists_run_of_evalList (fun e he => hspares e (hitems e he)) hs hlist he
    exact ih e he hp hs₁ hrun₁
  | object hproperties ih =>
    rw [watch, watchProperties_eq, mem_watched_union_iff] at hp
    obtain ⟨w, hw, -, hp⟩ := hp
    obtain ⟨x, hx, rfl⟩ := List.mem_map.1 hw
    simp only [eval] at hrun
    rw [Compute.runOn_bind_of_ok (Store.runOn_making _ s)] at hrun
    obtain ⟨_, u, hfill, -⟩ := Compute.runOn_bind_ok_cases hrun
    obtain ⟨s₁, t₁, y, hs₁, hrun₁⟩ := exists_run_of_evalProperties
      (fun x hx => hspares x.2 (hproperties x hx)) hs.size_objects_le
      (hs.trans (s.heap.keeps_newObject .empty none)) hfill hx
    exact ih x hx hp hs₁ hrun₁
  | member | element | logical | conditional =>
    -- These are watched as they are.
    obtain rfl := List.mem_singleton.1 hp
    exact ⟨s, t, v, hs, hrun⟩
  | filter name hinput hargs ihinput ihargs =>
    rw [watch, watchList_eq] at hp
    split at hp
    · obtain rfl := List.mem_singleton.1 hp
      exact ⟨s, t, v, hs, hrun⟩
    · simp only [eval] at hrun
      obtain ⟨x, u, hx, hrest⟩ := Compute.runOn_bind_ok_cases hrun
      obtain ⟨values, u', hlist, -⟩ := Compute.runOn_bind_ok_cases hrest
      obtain ⟨w, hw, -, hp⟩ := mem_watched_union_iff.1 hp
      rcases List.mem_cons.1 hw with rfl | hw
      · exact ihinput hp hs hx
      · obtain ⟨e, he, rfl⟩ := List.mem_map.1 hw
        obtain ⟨s₁, t₁, y, hs₁, hrun₁⟩ := exists_run_of_evalList
          (fun e he => hspares e (hargs e he)) (hspares _ hinput hx hs) hlist he
        exact ihargs e he hp hs₁ hrun₁
  | unary op _ ih =>
    simp only [eval] at hrun
    obtain ⟨w, u, hw, -⟩ := Compute.runOn_bind_ok_cases hrun
    exact ih hp hs hw
  | binary op hleft _ ihleft ihright =>
    simp only [eval] at hrun
    obtain ⟨w, u, hw, hrest⟩ := Compute.runOn_bind_ok_cases hrun
    obtain ⟨w', u', hw', -⟩ := Compute.runOn_bind_ok_cases hrest
    rcases List.mem_append.1 hp with hp | hp
    · exact ihleft hp hs hw
    · exact ihright hp (hspares _ hleft hw hs) hw'

/-- To evaluate a path changes nothing at all, whatever is missing on the way. -/
lemma IsPath.unchanged (he : e.IsPath) :
    Leads Eq (e.eval lib env .read : Compute (Store σ) Value) := by
  induction he with
  | name s =>
    simp only [eval, locate]
    exact (env.unchanged_locateName s).bind fun _ => .pure _
  | member _ key ih =>
    simp only [eval, locate, bind_assoc]
    exact ih.bind fun v => (env.unchanged_locateMember .read v key).bind fun _ => .pure _

end Expr

/-! ## Compiled expressions that read -/

namespace Expression

variable {e : Expression} {lib : Library σ} {n : ℕ} {context : Value} {locals : Option Value}

/-- An expression that reads leaves every container that was there before as it was, and so do its
inputs, whether they have a value or fail.  A path leaves the whole store as it was. -/
theorem reading_leaves_containers (hreads : ∀ s ∈ e.body, s.Reads) {s : Store σ}
    (hfilters : ∀ filter ∈ e.filters, lib.Spares s.heap filter.2.behaviour) (n : ℕ)
    (context : Value) (locals : Option Value) :
    (∀ r t, runOn (e.eval lib n context locals) s = some (r, t) → s.heap.Keeps t.heap) ∧
      (∀ part ∈ e.inputs, ∀ r t, runOn (e.evalPart part lib n context locals) s = some (r, t) →
        s.heap.Keeps t.heap) ∧
      ∀ path, e.body = [path] → path.IsPath → ∀ r t,
        runOn (e.eval lib n context locals) s = some (r, t) → t = s := by
  have hlib : ∀ name behaviour, (e.env n context locals).filters.lookup name = some behaviour →
      lib.Spares s.heap behaviour := by
    intro name behaviour hlookup
    obtain ⟨filter, hfilter, rfl⟩ := exists_of_lookup hlookup
    exact hfilters filter hfilter
  refine ⟨fun r t hrun => ?_, fun part hpart r t hrun => ?_, fun path hbody hpath r t hrun => ?_⟩
  · exact Expr.spares_evalStatements (fun s hs => (hreads s hs).spares hlib) _ hrun (.refl _)
  · obtain ⟨s, hs, hwatched⟩ := exists_of_inputs (List.ne_nil_of_mem hpart)
    rw [hwatched] at hpart
    have hread : s.Reads := hreads s (hs ▸ .head _)
    exact (hread.of_mem_watched hpart).spares hlib hrun (.refl _)
  · rw [eval_eq_of_body hbody] at hrun
    exact (hpath.unchanged hrun).symm

/-! ## A gathering of two paths -/

/-- A path and a filtered name, put into fresh containers. -/
def gathering : Expression where
  source := "[a.b, { c: (a | given) }]"
  body := [.array [.place (.member (.place (.name "a")) "b"),
    .object [(.name "c", .filter "given" (.place (.name "a")) [])]]]
  filters := [("given", ⟨"given", false⟩)]
  oneTime := false

/-- A path that leads on from there. -/
def leading : Expression where
  source := "a.b.c"
  body := [.place (.member (.place (.member (.place (.name "a")) "b")) "c")]
  filters := []
  oneTime := false

/-- The name refers to an empty object. -/
def outset : Store Unit where
  heap := ⟨#[], #[⟨⟨[("a", .object 1)]⟩, none⟩, ⟨.empty, none⟩], #[]⟩
  host := ()

lemma gathering_reads : ∀ s ∈ gathering.body, s.Reads := by
  intro s hs
  obtain rfl := List.mem_singleton.1 hs
  have hname : (Expr.place (.name "a")).Reads := .part (.inl ⟨"a", rfl⟩)
  refine .array fun e he => ?_
  simp only [List.mem_cons, List.not_mem_nil, or_false] at he
  rcases he with rfl | rfl
  · exact .member hname "b"
  · refine .object fun x hx => ?_
    obtain rfl := List.mem_singleton.1 hx
    exact .filter "given" hname nofun

lemma plainLibrary_spares (b : Heap) (behaviour : String) : plainLibrary.Spares b behaviour :=
  fun _ => .pure _

/-- The gathering makes an array and an object, and the path makes nothing; the two objects that
were there before are left as they were. -/
theorem gathering_leaves_containers :
    (∀ s ∈ gathering.body, s.Reads) ∧
      (∀ filter ∈ gathering.filters, plainLibrary.Spares outset.heap filter.2.behaviour) ∧
      (∃ t, runOn (gathering.eval plainLibrary 0 (.object 0) none) outset =
        some (.ok (.array 0), t) ∧ outset.heap.Keeps t.heap) ∧
      ∃ r t, runOn (leading.eval plainLibrary 0 (.object 0) none) outset = some (r, t) ∧
        t = outset := by
  have hfilters : ∀ filter ∈ gathering.filters,
      plainLibrary.Spares outset.heap filter.2.behaviour :=
    fun filter _ => plainLibrary_spares _ filter.2.behaviour
  have hnofilters :
      ∀ filter ∈ leading.filters, plainLibrary.Spares outset.heap filter.2.behaviour := nofun
  have hpath : (Expr.place (.member (.place (.member (.place (.name "a")) "b")) "c")).IsPath :=
    .member (.member (.name "a") "b") "c"
  have hleading : ∀ s ∈ leading.body, s.Reads := by
    intro s hs
    obtain rfl := List.mem_singleton.1 hs
    exact (Expr.Composed.path hpath).reads
  obtain ⟨t, hrun⟩ : ∃ t, runOn (gathering.eval plainLibrary 0 (.object 0) none) outset =
      some (.ok (.array 0), t) := by
    generalize hx : runOn _ _ = x
    cbv at hx
    subst hx
    exact ⟨_, rfl⟩
  obtain ⟨r, u, hend⟩ : ∃ r u, runOn (leading.eval plainLibrary 0 (.object 0) none) outset =
      some (r, u) := by
    generalize hx : runOn _ _ = x
    cbv at hx
    subst hx
    exact ⟨_, _, rfl⟩
  refine ⟨gathering_reads, hfilters, ⟨t, hrun, ?_⟩, r, u, hend, ?_⟩
  · exact (reading_leaves_containers gathering_reads hfilters 0 (.object 0) none).1 _ t hrun
  · exact (reading_leaves_containers hleading hnofilters 0 (.object 0) none).2.2 _ rfl hpath r u
      hend

end Expression

end DataBinding
