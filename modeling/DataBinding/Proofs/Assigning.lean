import DataBinding.Proofs.Dotted
import DataBinding.Proofs.Inputs
import DataBinding.Proofs.Steps
import DataBinding.Proofs.Trails

/-!
# Assignment through a path

To assign to a path is to go along its names and to write at the end of them: the evaluation makes
the objects that are missing on the way, and no others (`Expr.runOn_locate_path`).  So on a trail it
comes to `Heap.writeAlong`, and the path leads to what was assigned, by the objects that were there;
of all that was there before, one property is written (`Expression.assign_writes_location`).

The value is guarded when it is written, which is when the missing objects have been made.  It may
have passed before and be refused then, because an object that is made can complete what gives a
node of a document away (`Expression.assign_completes_node`).
-/

namespace DataBinding

open Compute (runOn)

variable {σ : Type} {lib : Library σ} {env : Env} {s t : Store σ} {c o : ℕ} {first key : String}
  {rest : List String}

/-! ## Single steps -/

/-- What is missing at a member of an object is put there. -/
lemma Location.runOn_intermediate
    (hget : (t.heap.get o key).isNullish ∨ ∃ p, t.heap.get o key = .object p) :
    runOn (Location.intermediate ⟨.object o, key, t.heap.get o key⟩) t =
      some (.ok (.object (t.heap.enter o key).1), { t with heap := (t.heap.enter o key).2 }) := by
  rw [intermediate]
  rcases hget with hgap | ⟨p, hp⟩
  · rw [Heap.enter_of_isNullish hgap]
    dsimp only
    rw [if_pos (by rw [hgap]; rfl), Compute.runOn_bind_of_ok (Store.runOn_making _ t),
      Compute.runOn_bind_of_ok (Store.runOn_changingIf _ _)]
    rfl
  · rw [Heap.enter_of_object hp]
    dsimp only
    rw [if_neg (by rw [hp]; nofun), hp]
    rfl

namespace Env

lemma runOn_guardMember_of_permitted (hkey : key ∉ forbiddenMembers) :
    runOn (env.guardMember key) s = some (.ok (), s) := by
  rw [runOn_guardMember, if_neg hkey]

lemma runOn_guardValue_of_accepted {v : Value} (hv : s.heap.forbidden? v = none) :
    runOn (env.guardValue v) s = some (.ok (), s) := by
  rw [runOn_guardValue, hv]
  rfl

/-- A value that passes is written to an object. -/
lemma runOn_store {v x : Value} (hv : t.heap.forbidden? v = none) :
    runOn (env.store ⟨.object o, key, x⟩ v) t =
      some (.ok v, { t with heap := t.heap.setOwn o key v }) := by
  rw [store, Compute.runOn_bind_of_ok (runOn_guardValue_of_accepted hv),
    Compute.runOn_bind_of_ok (Store.runOn_changingIf _ _)]
  rfl

lemma runOn_locateName (hcontext : env.context = .object c) (hlocals : env.locals = none)
    (hkey : key ∉ forbiddenMembers) (haccepted : s.heap.forbidden? (s.heap.get c key) = none) :
    runOn (env.locateName key) s = some (.ok ⟨.object c, key, s.heap.get c key⟩, s) := by
  have hholder : env.holder s.heap key = .object c := by rw [holder, hlocals, hcontext]
  rw [locateName, Compute.runOn_bind_of_ok (runOn_guardMember_of_permitted hkey),
    Compute.runOn_bind_of_ok (Store.runOn_reading _ s), hholder,
    Compute.runOn_bind_of_ok (Store.runOn_reading _ s)]
  exact Compute.runOn_bind_of_ok (runOn_guardValue_of_accepted haccepted)

lemma runOn_locateMember (hkey : key ∉ forbiddenMembers)
    (hbase : t.heap.forbidden? (.object o) = none)
    (haccepted : t.heap.forbidden? (t.heap.get o key) = none) :
    runOn (env.locateMember .create (.object o) key) t =
      some (.ok ⟨.object o, key, t.heap.get o key⟩, t) := by
  rw [locateMember_eq, Compute.runOn_bind_of_ok (runOn_guardMember_of_permitted hkey), if_pos rfl,
    Compute.runOn_bind_of_ok (runOn_guardValue_of_accepted hbase),
    Compute.runOn_bind_of_ok (Store.runOn_reading _ t)]
  exact Compute.runOn_bind_of_ok (runOn_guardValue_of_accepted haccepted)

end Env

/-! ## Going along a path -/

namespace Expr

/-- From a location on a trail the members lead on to the last one, in the object that going along
the names ends at. -/
lemma runOn_locate_members {p : Place} (hnames : ∀ name ∈ rest, name ∉ forbiddenMembers)
    (htrail : t.heap.Trail o (key :: rest)) (ho : t.heap.Has (.object o))
    (hp : runOn (locate lib env .create p) s =
      some (.ok ⟨.object o, key, t.heap.get o key⟩, t)) :
    ∃ x, runOn (locate lib env .create (rest.foldl (fun p key => .member (.place p) key) p)) s =
      some (.ok ⟨.object (t.heap.pave o (key :: rest).dropLast).1,
        (key :: rest).getLast (List.cons_ne_nil key rest), x⟩,
        { t with heap := (t.heap.pave o (key :: rest).dropLast).2 }) := by
  induction rest generalizing p o key t with
  | nil => exact ⟨_, hp⟩
  | cons next rest ih =>
    obtain ⟨hnext, hrest⟩ := List.forall_mem_cons.1 hnames
    obtain ⟨hhas, hbase, hgoes⟩ := htrail.enter ho (List.cons_ne_nil next rest)
    have hget : (t.heap.get o key).isNullish ∨ ∃ p, t.heap.get o key = .object p :=
      (htrail.head_cases (List.cons_ne_nil next rest)).imp_right fun ⟨p, hp, _⟩ => ⟨p, hp⟩
    have hentered : runOn (eval lib env .create (.place p)) s =
        some (.ok (.object (t.heap.enter o key).1), { t with heap := (t.heap.enter o key).2 }) := by
      rw [eval, Compute.runOn_bind_of_ok hp]
      exact Location.runOn_intermediate hget
    have hmember : runOn (locate lib env .create (.member (.place p) next)) s =
        some (.ok ⟨.object (t.heap.enter o key).1, next,
          (t.heap.enter o key).2.get (t.heap.enter o key).1 next⟩,
          { t with heap := (t.heap.enter o key).2 }) := by
      rw [locate, Compute.runOn_bind_of_ok hentered]
      exact Env.runOn_locateMember hnext hbase hgoes.accepted_head
    exact ih (t := { t with heap := (t.heap.enter o key).2 }) hrest hgoes hhas hmember

/-- To locate a path for writing makes what is missing on the way to its last member. -/
lemma runOn_locate_path (lib : Library σ) (env : Env) (hcontext : env.context = .object c)
    (hlocals : env.locals = none) (hnames : ∀ name ∈ first :: rest, name ∉ forbiddenMembers)
    (htrail : s.heap.Trail c (first :: rest)) (hc : s.heap.Has (.object c)) :
    ∃ x, runOn (locate lib env .create (.path first rest)) s =
      some (.ok ⟨.object (s.heap.pave c (first :: rest).dropLast).1,
        (first :: rest).getLast (List.cons_ne_nil first rest), x⟩,
        { s with heap := (s.heap.pave c (first :: rest).dropLast).2 }) := by
  obtain ⟨hfirst, hrest⟩ := List.forall_mem_cons.1 hnames
  have hname : runOn (locate lib env .create (.name first)) s =
      some (.ok ⟨.object c, first, s.heap.get c first⟩, s) := by
    rw [locate]
    exact Env.runOn_locateName hcontext hlocals hfirst htrail.accepted_head
  exact runOn_locate_members hrest htrail hc hname

end Expr

/-! ## Assignments -/

namespace Expression

/-- An assignment through a path on a trail yields the value, if that passes once what is missing on
the way has been made.  Then the path leads to the value, by the objects that were there before; and
all that was there before is as it was, but for one property of one object, which is the last member
of the path or the first that was missing. -/
theorem assign_writes_location (registry : Record Filter) (hfirst : Phrase.keyword? first = none)
    (hnames : ∀ name ∈ first :: rest, Token.isWord name ∧ name ∉ forbiddenMembers)
    (oneTime : Bool) (lib : Library σ) (n : ℕ) (hc : s.heap.Has (.object c))
    (htrail : s.heap.Trail c (first :: rest)) {v : Value}
    (hv : (s.heap.pave c (first :: rest).dropLast).2.forbidden? v = none) :
    ∃ e k, compile registry (".".intercalate (first :: rest)) oneTime = .ok e ∧
      runOn (e.assign lib n (.object c) v none) s = some (.ok v, { s with heap := k }) ∧
      k.follow (.object c) (first :: rest) = v ∧
      (∀ way o, way <+: first :: rest → way ≠ first :: rest →
        s.heap.follow (.object c) way = .object o → k.follow (.object c) way = .object o) ∧
      ∃ o key x, s.heap.Lands c (first :: rest) v o key x ∧ (s.heap.setOwn o key x).Keeps k := by
  obtain ⟨x, hlocate⟩ := Expr.runOn_locate_path lib
    ((dotted first rest oneTime).env n (.object c) none) rfl rfl
    (fun name hname => (hnames name hname).2) htrail hc
  have hrun : runOn ((dotted first rest oneTime).assign lib n (.object c) v none) s =
      some (.ok v,
        { s with
          heap := s.heap.writeAlong c (first :: rest).dropLast
            ((first :: rest).getLast (List.cons_ne_nil first rest)) v }) := by
    change runOn (Expr.locate lib _ .create (.path first rest) >>= fun loc => Env.store _ loc v) s =
      _
    rw [Compute.runOn_bind_of_ok hlocate]
    exact Env.runOn_store hv
  have hsplit := List.dropLast_append_getLast (List.cons_ne_nil first rest)
  rw [← hsplit] at htrail
  refine ⟨dotted first rest oneTime, _,
    compile_dotted registry hfirst (fun name hname => (hnames name hname).1) oneTime, hrun, ?_, ?_,
    ?_⟩
  · have hfollow := htrail.follow_writeAlong hc v
    rwa [hsplit] at hfollow
  · intro way o hway hend ho
    have hfront : way <+: (first :: rest).dropLast := by
      rw [← hsplit, List.prefix_concat_iff, hsplit] at hway
      exact hway.resolve_left hend
    exact htrail.follow_writeAlong_of_object hc v hfront ho
  · have hlands := htrail.exists_lands hc v
    rwa [hsplit] at hlands

/-! ## A path of which some is there -/

/-- The context has a name for an empty object. -/
def hallway : Store Unit where
  heap := ⟨#[], #[⟨⟨[("a", .object 1)]⟩, none⟩, ⟨.empty, none⟩], #[]⟩
  host := ()

/-- From the context a trail leads to the object, and then to nothing. -/
lemma hallway_trail : hallway.heap.Trail 0 ["a", "b", "c"] := by
  have hways : ∀ way, way <+: ["a", "b", "c"] → way ≠ [] →
      way = ["a"] ∨ (hallway.heap.follow (.object 0) way).isNullish := by
    intro way hway hstart
    have hmem := (List.mem_inits _ _).2 hway
    simp only [List.inits, List.map_cons, List.map_nil, List.mem_cons, List.not_mem_nil,
      or_false] at hmem
    rcases hmem with rfl | rfl | rfl | rfl
    · exact absurd rfl hstart
    · exact .inl rfl
    all_goals exact .inr (by cbv)
  have hobject : hallway.heap.follow (.object 0) ["a"] = .object 1 := by cbv
  refine ⟨fun way hway hstart => ?_, fun way hway hstart _ => ?_, ?_⟩
  · rcases hways way hway hstart with rfl | hgap
    · cbv
    · exact Heap.forbidden?_of_isNullish hgap
  · rcases hways way hway hstart with rfl | hgap
    · refine .inr ⟨1, hobject, Nat.one_lt_two, rfl, fun hinherits => ?_⟩
      cases hinherits.eq_of_parent?_eq_none rfl
    · exact .inl hgap
  · intro way way' o hway hway' hstart hstart' _ _ hleads hleads'
    rcases hways way hway hstart with rfl | hgap
    · rcases hways way' hway' hstart' with rfl | hgap
      · rfl
      · rw [hleads'] at hgap
        cases hgap
    · rw [hleads] at hgap
      cases hgap

/-- The context itself is assigned there, and between it and the object another one is made. -/
theorem hallway_writes_location :
    ∃ e k, compile .empty "a.b.c" false = .ok e ∧
      runOn (e.assign plainLibrary 0 (.object 0) (.object 0) none) hallway =
        some (.ok (.object 0), { hallway with heap := k }) ∧
      k.follow (.object 0) ["a", "b", "c"] = .object 0 ∧
      (∀ way o, way <+: ["a", "b", "c"] → way ≠ ["a", "b", "c"] →
        hallway.heap.follow (.object 0) way = .object o →
          k.follow (.object 0) way = .object o) ∧
      ∃ o key x, hallway.heap.Lands 0 ["a", "b", "c"] (.object 0) o key x ∧
        (hallway.heap.setOwn o key x).Keeps k := by
  have hcontext : hallway.heap.Has (.object 0) := Nat.zero_lt_two
  have hnames : ∀ name ∈ ["a", "b", "c"], Token.isWord name ∧ name ∉ forbiddenMembers := by decide
  have hpassed : (hallway.heap.pave 0 ["a", "b"]).2.forbidden? (.object 0) = none := by cbv
  exact assign_writes_location .empty rfl hnames false plainLibrary 0 hcontext hallway_trail hpassed

/-! ## A value that is refused once the objects are made -/

/-- The context has the name of a node, and no children. -/
def childless : Store Unit where
  heap := ⟨#[], #[⟨⟨[("nodeName", .string "DIV")]⟩, none⟩], #[]⟩
  host := ()

/-- The context passes as long as it has no children.  When it is assigned to a member of these,
they are made first, and then it is refused. -/
theorem assign_completes_node :
    Phrase.keyword? "children" = none ∧
      (∀ name ∈ ["children", "x"], Token.isWord name ∧ name ∉ forbiddenMembers) ∧
      childless.heap.Has (.object 0) ∧ childless.heap.Trail 0 ["children", "x"] ∧
      childless.heap.forbidden? (.object 0) = none ∧
      ∃ e t, compile .empty "children.x" false = .ok e ∧
        runOn (e.assign plainLibrary 0 (.object 0) (.object 0) none) childless =
          some (.error (.refused .documentNode "children.x"), t) := by
  have hwords : ∀ name ∈ ["children", "x"], Token.isWord name := by decide
  have hcompile : compile .empty (".".intercalate ["children", "x"]) false = _ :=
    compile_dotted .empty rfl hwords false
  obtain ⟨t, hrun⟩ : ∃ t, runOn ((dotted "children" ["x"] false).assign plainLibrary 0 (.object 0)
      (.object 0) none) childless =
        some (.error (.refused .documentNode "children.x"), t) := by
    generalize hx : runOn _ _ = x
    cbv at hx
    subst hx
    exact ⟨_, rfl⟩
  exact ⟨rfl, by decide, Nat.zero_lt_one, .of_gap (by cbv) _, by cbv, _, t, hcompile, hrun⟩

end Expression

end DataBinding
