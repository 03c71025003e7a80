import DataBinding.Evaluation.Nodes
import Mathlib.Data.List.Forall2
import Mathlib.Data.List.Perm.Basic
import Mathlib.Tactic.Common

/-!
# The numbering of a program

What is true of the nodes of a program: a node comes after its parts, every node but the root has
one place where it is referred to, and what stands at a place is of the kind that belongs there.  A
literal that is the key of a property is the only exception; its node is left behind before the
property.

The numbering works like a stack.  `Tidy nodes tops` says all of this about the nodes so far, where
`tops` are the numbers that are still to be referred to; a new node refers to some of the last of
them and takes their place (`Tidy.push`).
-/

namespace DataBinding.Arena

variable {nodes nodes' : Array Node} {stateful : String → Bool}

/-- What the node of a number is, if there is one. -/
def kind? (nodes : Array Node) (id : ℕ) : Option NodeKind := nodes[id]?.map (·.kind)

/-- All that the nodes refer to. -/
def references (nodes : Array Node) : List ℕ := nodes.toList.flatMap (·.kind.children)

/-- What a node refers to is of the kind that belongs there. -/
def Fits (nodes : Array Node) : NodeKind → Prop
  | .assignment target _ =>
    (∃ s, kind? nodes target = some (.identifier s)) ∨
      ∃ base key computed, kind? nodes target = some (.member base key computed)
  | .call callee _ true => ∃ s, kind? nodes callee = some (.identifier s)
  | .member _ key false => ∃ s, kind? nodes key = some (.identifier s)
  | .object properties =>
    ∀ id ∈ properties, ∃ key value, kind? nodes id = some (.property key value)
  | _ => True

/-- The node is the literal that was the key of a property, whose value and own node come next. -/
def LeftByKey (nodes : Array Node) (id : ℕ) : Prop :=
  ∃ l value, kind? nodes id = some (.literal l) ∧ id < value ∧
    kind? nodes (value + 1) = some (.property l.text value)

/-- The nodes are in order, apart from some tops that nothing refers to yet. -/
structure Tidy (nodes : Array Node) (tops : List ℕ) : Prop where
  children_lt : ∀ {id kind}, kind? nodes id = some kind → ∀ child ∈ kind.children, child < id
  fits : ∀ {id kind}, kind? nodes id = some kind → Fits nodes kind
  tops_lt : ∀ id ∈ tops, id < nodes.size
  once : ∀ id < nodes.size, (references nodes).count id + tops.count id = 1 ∨
    (references nodes).count id + tops.count id = 0 ∧ LeftByKey nodes id

/-- The later nodes have the earlier ones as they were. -/
def Extends (nodes nodes' : Array Node) : Prop :=
  ∀ (id : ℕ) (node : Node), nodes[id]? = some node → nodes'[id]? = some node

namespace Extends

lemma refl (nodes : Array Node) : Extends nodes nodes := fun _ _ h => h

lemma trans {nodes'' : Array Node} (h : Extends nodes nodes') (h' : Extends nodes' nodes'') :
    Extends nodes nodes'' := fun id node hid => h' id node (h id node hid)

lemma push (nodes : Array Node) (node : Node) : Extends nodes (nodes.push node) := by
  intro id other hid
  have hlt : id < nodes.size := (Array.getElem?_eq_some_iff.1 hid).1
  rw [Array.getElem?_push, if_neg (Nat.ne_of_lt hlt), hid]

lemma kind? {id : ℕ} {kind : NodeKind} (h : Extends nodes nodes')
    (hid : Arena.kind? nodes id = some kind) : Arena.kind? nodes' id = some kind := by
  obtain ⟨node, hnode, rfl⟩ := Option.map_eq_some_iff.1 hid
  rw [Arena.kind?, h id node hnode]
  rfl

lemma size_le (h : Extends nodes nodes') : nodes.size ≤ nodes'.size := by
  by_contra hlt
  have hlast : nodes'.size < nodes.size := Nat.lt_of_not_le hlt
  have hsome := h nodes'.size _ (Array.getElem?_eq_getElem hlast)
  exact Nat.lt_irrefl _ (Array.getElem?_eq_some_iff.1 hsome).1

lemma fits {kind : NodeKind} (h : Extends nodes nodes') (hfits : Fits nodes kind) :
    Fits nodes' kind := by
  unfold Fits at hfits ⊢
  split at hfits
  · rcases hfits with ⟨s, hs⟩ | ⟨base, key, computed, hmember⟩
    · exact .inl ⟨s, h.kind? hs⟩
    · exact .inr ⟨base, key, computed, h.kind? hmember⟩
  · obtain ⟨s, hs⟩ := hfits
    exact ⟨s, h.kind? hs⟩
  · obtain ⟨s, hs⟩ := hfits
    exact ⟨s, h.kind? hs⟩
  · intro id hid
    obtain ⟨key, value, hproperty⟩ := hfits id hid
    exact ⟨key, value, h.kind? hproperty⟩
  · trivial

lemma leftByKey {id : ℕ} (h : Extends nodes nodes') (hid : LeftByKey nodes id) :
    LeftByKey nodes' id := by
  obtain ⟨l, value, hl, hlt, hproperty⟩ := hid
  exact ⟨l, value, h.kind? hl, hlt, h.kind? hproperty⟩

end Extends

@[simp]
lemma kind?_push_size (nodes : Array Node) (node : Node) :
    kind? (nodes.push node) nodes.size = some node.kind := by
  simp [kind?]

lemma kind?_push {id : ℕ} {kind : NodeKind} {node : Node}
    (h : kind? (nodes.push node) id = some kind) :
    kind? nodes id = some kind ∨ id = nodes.size ∧ node.kind = kind := by
  rw [kind?, Array.getElem?_push] at h
  split at h
  · next hid => exact .inr ⟨hid, Option.some.inj h⟩
  · exact .inl h

lemma lt_size_of_kind? {id : ℕ} {kind : NodeKind} (h : kind? nodes id = some kind) :
    id < nodes.size := by
  obtain ⟨node, hnode, -⟩ := Option.map_eq_some_iff.1 h
  exact (Array.getElem?_eq_some_iff.1 hnode).1

namespace Tidy

variable {tops xs : List ℕ}

lemma empty : Tidy #[] [] where
  children_lt h := by cases h
  fits h := by cases h
  tops_lt _ h := by cases h
  once _ h := absurd h (Nat.not_lt_zero _)

lemma references_lt (h : Tidy nodes tops) {id : ℕ} (hid : id ∈ references nodes) :
    id < nodes.size := by
  obtain ⟨node, hnode, hchild⟩ := List.mem_flatMap.1 hid
  obtain ⟨parent, hparent, hget⟩ := List.getElem_of_mem hnode
  have hkind : kind? nodes parent = some node.kind := by
    have hsome : nodes[parent]? = some node := by
      rw [← Array.getElem?_toList, List.getElem?_eq_getElem hparent, hget]
    rw [kind?, hsome]
    rfl
  exact Nat.lt_trans (h.children_lt hkind id hchild) (lt_size_of_kind? hkind)

/-- A new node that refers to the last tops takes their place. -/
lemma push {node : Node} (h : Tidy nodes (tops ++ xs)) (hchildren : node.kind.children.Perm xs)
    (hfits : Fits nodes node.kind) : Tidy (nodes.push node) (tops ++ [nodes.size]) := by
  have hextends := Extends.push nodes node
  have hreferences : references (nodes.push node) = references nodes ++ node.kind.children := by
    simp [references]
  have hchild : ∀ child ∈ node.kind.children, child < nodes.size := fun child hc =>
    h.tops_lt child (List.mem_append_right _ (hchildren.mem_iff.1 hc))
  refine ⟨fun hkind => ?_, fun hkind => ?_, ?_, ?_⟩
  · rcases kind?_push hkind with hold | ⟨rfl, rfl⟩
    · exact h.children_lt hold
    · exact hchild
  · rcases kind?_push hkind with hold | ⟨rfl, rfl⟩
    · exact hextends.fits (h.fits hold)
    · exact hextends.fits hfits
  · intro id hid
    rw [Array.size_push]
    rcases List.mem_append.1 hid with hid | hid
    · exact Nat.lt_succ_of_lt (h.tops_lt id (List.mem_append_left _ hid))
    · rw [List.mem_singleton.1 hid]
      exact Nat.lt_succ_self _
  · intro id hid
    rw [hreferences, List.count_append, List.count_append, hchildren.count_eq]
    rw [Array.size_push] at hid
    rcases Nat.lt_succ_iff_lt_or_eq.1 hid with hlt | rfl
    · have honce := h.once id hlt
      rw [List.count_append] at honce
      have hnew : [nodes.size].count id = 0 := by
        rw [List.count_eq_zero, List.mem_singleton]
        omega
      rcases honce with hone | ⟨hzero, hleft⟩
      · exact .inl (by omega)
      · exact .inr ⟨by omega, hextends.leftByKey hleft⟩
    · -- nothing so far refers to the number of the new node
      have hnone : (references nodes).count nodes.size = 0 :=
        List.count_eq_zero.2 fun hmem => Nat.lt_irrefl _ (h.references_lt hmem)
      have htops : (tops ++ xs).count nodes.size = 0 :=
        List.count_eq_zero.2 fun hmem => Nat.lt_irrefl _ (h.tops_lt _ hmem)
      rw [List.count_append] at htops
      have hnew : [nodes.size].count nodes.size = 1 := by simp
      exact .inl (by omega)

/-- A literal is no longer a top once it is known as the key of a property. -/
lemma leave {id : ℕ} (h : Tidy nodes (tops ++ id :: xs)) (hid : LeftByKey nodes id) :
    Tidy nodes (tops ++ xs) := by
  refine ⟨h.children_lt, h.fits, fun other hother => ?_, fun other hother => ?_⟩
  · refine h.tops_lt other ?_
    simp only [List.mem_append, List.mem_cons] at hother ⊢
    tauto
  · have honce := h.once other hother
    simp only [List.count_append, List.count_cons] at honce ⊢
    by_cases heq : id = other
    · subst heq
      rcases honce with hone | ⟨hzero, -⟩
      · exact .inr ⟨by simp at hone; omega, hid⟩
      · simp at hzero
    · simp only [beq_iff_eq, heq, if_false, Nat.add_zero] at honce
      exact honce

end Tidy

/-! ## What the nodes stand for -/

mutual

/-- The node stands for the expression. -/
def Stands (nodes : Array Node) : Expr → ℕ → Prop
  | .literal l, id => kind? nodes id = some (.literal l)
  | .this, id => kind? nodes id = some .this
  | .locals, id => kind? nodes id = some .locals
  | .array items, id =>
    ∃ ids, kind? nodes id = some (.array ids) ∧ StandAll nodes items ids
  | .object properties, id =>
    ∃ ids, kind? nodes id = some (.object ids) ∧ StandAsProperties nodes properties ids
  | .place p, id => StandsPlace nodes p id
  | .call callee args, id =>
    ∃ i ids, kind? nodes id = some (.call i ids false) ∧ Stands nodes callee i ∧
      StandAll nodes args ids
  | .filter name input args, id =>
    ∃ callee i ids, kind? nodes id = some (.call callee (i :: ids) true) ∧
      kind? nodes callee = some (.identifier name) ∧ Stands nodes input i ∧
      StandAll nodes args ids
  | .assign target value, id =>
    ∃ i j, kind? nodes id = some (.assignment i j) ∧ StandsPlace nodes target i ∧
      Stands nodes value j
  | .unary op operand, id =>
    ∃ i, kind? nodes id = some (.unary op i) ∧ Stands nodes operand i
  | .binary op left right, id =>
    ∃ i j, kind? nodes id = some (.binary op i j) ∧ Stands nodes left i ∧ Stands nodes right j
  | .logical op left right, id =>
    ∃ i j, kind? nodes id = some (.logical op i j) ∧ Stands nodes left i ∧ Stands nodes right j
  | .conditional test consequent alternate, id =>
    ∃ i j k, kind? nodes id = some (.conditional i j k) ∧ Stands nodes test i ∧
      Stands nodes consequent j ∧ Stands nodes alternate k

/-- The node stands for the place. -/
def StandsPlace (nodes : Array Node) : Place → ℕ → Prop
  | .name s, id => kind? nodes id = some (.identifier s)
  | .member base key, id =>
    ∃ i j, kind? nodes id = some (.member i j false) ∧ Stands nodes base i ∧
      kind? nodes j = some (.identifier key)
  | .element base key, id =>
    ∃ i j, kind? nodes id = some (.member i j true) ∧ Stands nodes base i ∧ Stands nodes key j

/-- The nodes stand for the expressions, one for each. -/
def StandAll (nodes : Array Node) : List Expr → List ℕ → Prop
  | [], ids => ids = []
  | e :: rest, ids => ∃ id ids', ids = id :: ids' ∧ Stands nodes e id ∧ StandAll nodes rest ids'

/-- The nodes stand for the properties of an object, one for each. -/
def StandAsProperties (nodes : Array Node) : List (PropertyKey × Expr) → List ℕ → Prop
  | [], ids => ids = []
  | (key, e) :: rest, ids =>
    ∃ id value ids', ids = id :: ids' ∧ kind? nodes id = some (.property key.text value) ∧
      Stands nodes e value ∧ StandAsProperties nodes rest ids'

end

namespace Extends

mutual

/-- What a node stands for does not change as nodes are added. -/
theorem stands (h : Extends nodes nodes') {e : Expr} {id : ℕ} (he : Stands nodes e id) :
    Stands nodes' e id := by
  match e with
  | .literal _ | .this | .locals => exact h.kind? he
  | .array items =>
    obtain ⟨ids, hkind, hitems⟩ := he
    exact ⟨ids, h.kind? hkind, h.standAll hitems⟩
  | .object properties =>
    obtain ⟨ids, hkind, hproperties⟩ := he
    exact ⟨ids, h.kind? hkind, h.standAsProperties hproperties⟩
  | .place p => exact h.standsPlace he
  | .call callee args =>
    obtain ⟨i, ids, hkind, hcallee, hargs⟩ := he
    exact ⟨i, ids, h.kind? hkind, h.stands hcallee, h.standAll hargs⟩
  | .filter name input args =>
    obtain ⟨callee, i, ids, hkind, hcallee, hinput, hargs⟩ := he
    exact ⟨callee, i, ids, h.kind? hkind, h.kind? hcallee, h.stands hinput, h.standAll hargs⟩
  | .assign target value =>
    obtain ⟨i, j, hkind, htarget, hvalue⟩ := he
    exact ⟨i, j, h.kind? hkind, h.standsPlace htarget, h.stands hvalue⟩
  | .unary op operand =>
    obtain ⟨i, hkind, hoperand⟩ := he
    exact ⟨i, h.kind? hkind, h.stands hoperand⟩
  | .binary op left right | .logical op left right =>
    obtain ⟨i, j, hkind, hleft, hright⟩ := he
    exact ⟨i, j, h.kind? hkind, h.stands hleft, h.stands hright⟩
  | .conditional test consequent alternate =>
    obtain ⟨i, j, k, hkind, htest, hconsequent, halternate⟩ := he
    exact ⟨i, j, k, h.kind? hkind, h.stands htest, h.stands hconsequent, h.stands halternate⟩
termination_by structural e

theorem standsPlace (h : Extends nodes nodes') {p : Place} {id : ℕ}
    (hp : StandsPlace nodes p id) : StandsPlace nodes' p id := by
  match p with
  | .name _ => exact h.kind? hp
  | .member base key =>
    obtain ⟨i, j, hkind, hbase, hkey⟩ := hp
    exact ⟨i, j, h.kind? hkind, h.stands hbase, h.kind? hkey⟩
  | .element base key =>
    obtain ⟨i, j, hkind, hbase, hkey⟩ := hp
    exact ⟨i, j, h.kind? hkind, h.stands hbase, h.stands hkey⟩
termination_by structural p

theorem standAll (h : Extends nodes nodes') {es : List Expr} {ids : List ℕ}
    (hes : StandAll nodes es ids) : StandAll nodes' es ids := by
  match es with
  | [] => exact hes
  | e :: rest =>
    obtain ⟨id, ids', hids, he, hrest⟩ := hes
    exact ⟨id, ids', hids, h.stands he, h.standAll hrest⟩
termination_by structural es

theorem standAsProperties (h : Extends nodes nodes') {ps : List (PropertyKey × Expr)}
    {ids : List ℕ} (hps : StandAsProperties nodes ps ids) : StandAsProperties nodes' ps ids := by
  match ps with
  | [] => exact hps
  | (key, e) :: rest =>
    obtain ⟨id, value, ids', hids, hkind, he, hrest⟩ := hps
    exact ⟨id, value, ids', hids, h.kind? hkind, h.stands he, h.standAsProperties hrest⟩
termination_by structural ps

end

end Extends

lemma lt_size_of_stands {e : Expr} {id : ℕ} (h : Stands nodes e id) : id < nodes.size := by
  match e with
  | .literal _ | .this | .locals | .place (.name _) => exact lt_size_of_kind? h
  | .array _ | .object _ | .unary .. =>
    obtain ⟨_, hkind, -⟩ := h
    exact lt_size_of_kind? hkind
  | .call .. | .assign .. | .binary .. | .logical .. | .place (.member ..) | .place (.element ..) =>
    obtain ⟨_, _, hkind, -⟩ := h
    exact lt_size_of_kind? hkind
  | .filter .. | .conditional .. =>
    obtain ⟨_, _, _, hkind, -⟩ := h
    exact lt_size_of_kind? hkind

/-- The watch of a node is that of the expression, with nodes in the place of parts. -/
structure Watches (nodes : Array Node) (w : Watch ℕ) (v : Watch Expr) : Prop where
  constant : w.constant = v.constant
  watched : List.Forall₂ (fun id part => Stands nodes part id) w.watched v.watched

namespace Watches

variable {w w' : Watch ℕ} {v v' : Watch Expr}

lemma extend (h : Watches nodes w v) (hextends : Extends nodes nodes') : Watches nodes' w v :=
  ⟨h.constant, h.watched.imp fun _ _ => hextends.stands⟩

lemma still (nodes : Array Node) (constant : Bool) :
    Watches nodes (.still constant) (.still constant) := ⟨rfl, .nil⟩

lemma itself {e : Expr} {id : ℕ} (he : Stands nodes e id) (constant : Bool) :
    Watches nodes (.itself id constant) (.itself e constant) := ⟨rfl, .cons he .nil⟩

lemma both (h : Watches nodes w v) (h' : Watches nodes w' v') :
    Watches nodes (.both w w') (.both v v') :=
  ⟨congrArg₂ (· && ·) h.constant h'.constant, List.rel_append h.watched h'.watched⟩

lemma lt_size (h : Watches nodes w v) : ∀ id ∈ w.watched, id < nodes.size := by
  have hboth : List.Forall₂ (fun id part => id < nodes.size ∧ Stands nodes part id)
      w.watched v.watched := h.watched.imp fun _ _ hpart => ⟨lt_size_of_stands hpart, hpart⟩
  exact ((List.forall₂_and_left _ _).1 hboth).1

lemma union {ws : List (Watch ℕ)} {vs : List (Watch Expr)}
    (h : List.Forall₂ (Watches nodes) ws vs) : Watches nodes (.union ws) (.union vs) := by
  induction h with
  | nil => exact still nodes true
  | cons hfirst _ ih =>
    rw [Watch.union_cons, Watch.union_cons]
    refine ⟨congrArg₂ (· && ·) hfirst.constant ih.constant, List.rel_append ?_ ih.watched⟩
    rw [hfirst.constant]
    split
    · exact .nil
    · exact hfirst.watched

end Watches

/-! ## Numbering -/

/-- What holds of a numbering that begins at some nodes: of its result, and of the nodes it
leaves. -/
def Numbers {α : Type} (nodes : Array Node) (m : Numbering α) (P : α → Array Node → Prop) : Prop :=
  P (m nodes).1 (m nodes).2

lemma Numbers.bind {α β : Type} {m : Numbering α} {f : α → Numbering β}
    {P : α → Array Node → Prop} {Q : β → Array Node → Prop} (hm : Numbers nodes m P)
    (hf : ∀ a nodes', P a nodes' → Numbers nodes' (f a) Q) : Numbers nodes (m >>= f) Q :=
  hf _ _ hm

/-- Some new nodes; the numbers are those that nothing refers to yet. -/
structure Grows (nodes nodes' : Array Node) (ids : List ℕ) : Prop where
  keeps : Extends nodes nodes'
  tidy : ∀ tops, Tidy nodes tops → Tidy nodes' (tops ++ ids)
  programs : ∀ {id body}, kind? nodes' id = some (.program body) →
    kind? nodes id = some (.program body)

namespace Grows

variable {nodes'' : Array Node} {ids ids' : List ℕ}

lemma refl (nodes : Array Node) : Grows nodes nodes [] :=
  ⟨.refl nodes, fun tops h => by simpa using h, id⟩

lemma trans (h : Grows nodes nodes' ids) (h' : Grows nodes' nodes'' ids') :
    Grows nodes nodes'' (ids ++ ids') := by
  refine ⟨h.keeps.trans h'.keeps, fun tops htops => ?_, fun hkind => h.programs (h'.programs hkind)⟩
  rw [← List.append_assoc]
  exact h'.tidy _ (h.tidy tops htops)

/-- One more node, which refers to all of the others. -/
lemma push {node : Node} (h : Grows nodes nodes' ids) (hchildren : node.kind.children.Perm ids)
    (hfits : Fits nodes' node.kind) (hprogram : ∀ body, node.kind ≠ .program body) :
    Grows nodes (nodes'.push node) [nodes'.size] := by
  refine ⟨h.keeps.trans (.push _ _), fun tops htops => (h.tidy tops htops).push hchildren hfits,
    fun hkind => ?_⟩
  rcases kind?_push hkind with hold | ⟨-, hnode⟩
  · exact h.programs hold
  · exact absurd hnode (hprogram _)

/-- The key of a property is not referred to. -/
lemma leave {id : ℕ} (h : Grows nodes nodes' (id :: ids)) (hid : LeftByKey nodes' id) :
    Grows nodes nodes' ids :=
  ⟨h.keeps, fun tops htops => (h.tidy tops htops).leave hid, h.programs⟩

end Grows

/-- The expression is numbered: by the number of its node, which is the last one, and with its
watch, which the node has. -/
structure Numbered (stateful : String → Bool) (nodes : Array Node) (e : Expr)
    (part : ℕ × Watch ℕ) (nodes' : Array Node) : Prop where
  grows : Grows nodes nodes' [part.1]
  first : nodes.size ≤ part.1
  last : nodes'.size = part.1 + 1
  stands : Stands nodes' e part.1
  watches : Watches nodes' part.2 (e.watch stateful)
  node : ∃ kind, nodes'[part.1]? = some ⟨kind, part.2⟩
  itself : part.2.watched = [part.1] ↔ e.watchesItself stateful = true

/-- Several expressions are numbered, from left to right. -/
structure NumberedAll (stateful : String → Bool) (nodes : Array Node) (es : List Expr)
    (parts : List (ℕ × Watch ℕ)) (nodes' : Array Node) : Prop where
  grows : Grows nodes nodes' (parts.map (·.1))
  stand : StandAll nodes' es (parts.map (·.1))
  node : ∀ part ∈ parts, ∃ kind, nodes'[part.1]? = some ⟨kind, part.2⟩
  itself : List.Forall₂ (fun part e => part.2.watched = [part.1] ↔ e.watchesItself stateful = true)
    parts es
  watch : List.Forall₂ (Watches nodes') (parts.map (·.2)) (Expr.watchList stateful es)

/-- The properties of an object are numbered, from left to right. -/
structure NumberedProperties (stateful : String → Bool) (nodes : Array Node)
    (ps : List (PropertyKey × Expr)) (parts : List (ℕ × Watch ℕ)) (nodes' : Array Node) : Prop where
  grows : Grows nodes nodes' (parts.map (·.1))
  stand : StandAsProperties nodes' ps (parts.map (·.1))
  watch : List.Forall₂ (Watches nodes') (parts.map (·.2)) (Expr.watchProperties stateful ps)

/-- The last node of an expression refers to those of its parts. -/
lemma numbers_add {n : Array Node} {ids : List ℕ} {e : Expr} {kind : NodeKind} {w : Watch ℕ}
    (hgrows : Grows nodes n ids) (hchildren : kind.children.Perm ids) (hfits : Fits n kind)
    (hprogram : ∀ body, kind ≠ .program body)
    (hitself : e.watchesItself stateful = false)
    (hstands : ∀ n', Extends n n' → kind? n' n.size = some kind → Stands n' e n.size)
    (hwatches : ∀ n', Extends n n' → Watches n' w (e.watch stateful)) :
    Numbers n (add kind w) (Numbered stateful nodes e) where
  grows := hgrows.push hchildren hfits hprogram
  first := hgrows.keeps.size_le
  last := Array.size_push _
  stands := hstands _ (.push _ _) (kind?_push_size _ _)
  watches := hwatches _ (.push _ _)
  node := ⟨kind, Array.getElem?_push_size⟩
  itself := by
    rw [hitself]
    refine iff_of_false (fun hw => ?_) (by simp)
    -- what is watched was there before the node
    have hlt := (hwatches n (.refl n)).lt_size n.size
    rw [show w.watched = [n.size] from hw] at hlt
    exact Nat.lt_irrefl _ (hlt (.head _))

/-- The same of an expression that is watched as it is. -/
lemma numbers_addItself {n : Array Node} {ids : List ℕ} {e : Expr} {kind : NodeKind}
    {constant : Bool} (hgrows : Grows nodes n ids) (hchildren : kind.children.Perm ids)
    (hfits : Fits n kind) (hprogram : ∀ body, kind ≠ .program body)
    (hitself : e.watchesItself stateful = true)
    (hstands : ∀ n', Extends n n' → kind? n' n.size = some kind → Stands n' e n.size)
    (hwatch : e.watch stateful = .itself e constant) :
    Numbers n (addItself kind constant) (Numbered stateful nodes e) where
  grows := hgrows.push hchildren hfits hprogram
  first := hgrows.keeps.size_le
  last := Array.size_push _
  stands := hstands _ (.push _ _) (kind?_push_size _ _)
  watches := by
    rw [hwatch]
    exact .itself (hstands _ (.push _ _) (kind?_push_size _ _)) constant
  node := ⟨kind, Array.getElem?_push_size⟩
  itself := iff_of_true rfl hitself

lemma numbers_addUnwatched {n : Array Node} {ids : List ℕ} (kind : NodeKind)
    (hgrows : Grows nodes n ids) (hchildren : kind.children = []) (hfits : Fits n kind)
    (hprogram : ∀ body, kind ≠ .program body) :
    Numbers n (addUnwatched kind) fun id n' =>
      Grows nodes n' (ids ++ [id]) ∧ Extends n n' ∧ id = n.size ∧ kind? n' id = some kind := by
  refine ⟨hgrows.trans ((Grows.refl n).push ?_ hfits hprogram), .push _ _, rfl,
    kind?_push_size _ _⟩
  rw [hchildren]

lemma exists_property_of_stand {ps : List (PropertyKey × Expr)} {ids : List ℕ}
    (h : StandAsProperties nodes ps ids) :
    ∀ id ∈ ids, ∃ key value, kind? nodes id = some (.property key value) := by
  induction ps generalizing ids with
  | nil =>
    obtain rfl : ids = [] := h
    exact fun id hid => nomatch hid
  | cons p rest ih =>
    obtain ⟨id, value, ids', rfl, hkind, -, hrest⟩ := h
    intro other hother
    rcases List.mem_cons.1 hother with rfl | hmem
    · exact ⟨_, _, hkind⟩
    · exact ih hrest other hmem

lemma fits_assignment {p : Place} {i j : ℕ} (h : StandsPlace nodes p i) :
    Fits nodes (.assignment i j) := by
  match p with
  | .name s => exact .inl ⟨s, h⟩
  | .member base key | .element base key =>
    obtain ⟨_, _, hkind, -⟩ := h
    exact .inr ⟨_, _, _, hkind⟩

/-- The key of a property is read: a literal leaves its node behind. -/
inductive KeyRead (nodes : Array Node) : PropertyKey → Array Node → Prop where
  | name (s : String) : KeyRead nodes (.name s) nodes
  | literal (l : Literal) (w : Watch ℕ) : KeyRead nodes (.literal l) (nodes.push ⟨.literal l, w⟩)

/-- The step of the numbering for the key of a property. -/
def numberKey : PropertyKey → Numbering Unit
  | .literal l => discard (addUnwatched (.literal l))
  | .name _ => pure ()

lemma numberProperties_cons (stateful : String → Bool) (key : PropertyKey) (e : Expr)
    (rest : List (PropertyKey × Expr)) :
    numberProperties stateful ((key, e) :: rest) = (do
      numberKey key
      let (value, w) ← number stateful e
      let part ← add (.property key.text value) w
      return part :: (← numberProperties stateful rest)) := by
  cases key <;> rw [numberProperties] <;> rfl

lemma numbers_key (key : PropertyKey) (nodes : Array Node) :
    Numbers nodes (numberKey key) fun _ n => KeyRead nodes key n := by
  cases key with
  | name s => exact .name s
  | literal l => exact .literal l _

lemma KeyRead.grows_property {key : PropertyKey} {e : Expr} {value : ℕ} {w : Watch ℕ}
    {n₁ n₂ : Array Node} (hkey : KeyRead nodes key n₁)
    (he : Numbered stateful n₁ e (value, w) n₂) :
    Grows nodes (n₂.push ⟨.property key.text value, w⟩) [n₂.size] := by
  have hpush : Grows n₁ (n₂.push ⟨.property key.text value, w⟩) [n₂.size] :=
    he.grows.push .rfl trivial (by simp)
  cases hkey with
  | name s => exact hpush
  | literal l w' =>
    have hliteral : Grows nodes (nodes.push ⟨.literal l, w'⟩) [nodes.size] :=
      (Grows.refl nodes).push .nil trivial (by simp)
    refine (hliteral.trans hpush).leave
      ⟨l, value, hpush.keeps.kind? (kind?_push_size _ _), ?_, ?_⟩
    · have hfirst := he.first
      rw [Array.size_push] at hfirst
      exact hfirst
    · have hlast : n₂.size = value + 1 := he.last
      rw [← hlast]
      exact kind?_push_size _ _

mutual

theorem numbers_number (stateful : String → Bool) (e : Expr) (nodes : Array Node) :
    Numbers nodes (number stateful e) (Numbered stateful nodes e) := by
  match e with
  | .literal l =>
    rw [number]
    exact numbers_add (.refl nodes) .nil trivial (by simp) rfl (fun _ _ hkind => hkind)
      fun n' _ => .still n' _
  | .this | .locals =>
    rw [number]
    exact numbers_add (.refl nodes) .nil trivial (by simp) rfl (fun _ _ hkind => hkind)
      fun n' _ => .still n' _
  | .array items =>
    rw [number]
    refine (numbers_numberList stateful items nodes).bind fun parts n₁ h₁ => ?_
    exact numbers_add h₁.grows .rfl trivial (by simp) rfl
      (fun _ hn hkind => ⟨_, hkind, hn.standAll h₁.stand⟩)
      fun _ hn => .union (h₁.watch.imp fun _ _ hw => hw.extend hn)
  | .object properties =>
    rw [number]
    refine (numbers_numberProperties stateful properties nodes).bind fun parts n₁ h₁ => ?_
    exact numbers_add h₁.grows .rfl (exists_property_of_stand h₁.stand) (by simp) rfl
      (fun _ hn hkind => ⟨_, hkind, hn.standAsProperties h₁.stand⟩)
      fun _ hn => .union (h₁.watch.imp fun _ _ hw => hw.extend hn)
  | .place p =>
    rw [number]
    exact numbers_numberPlace stateful p nodes
  | .call callee args =>
    rw [number]
    refine (numbers_number stateful callee nodes).bind fun (i, w) n₁ h₁ => ?_
    refine (numbers_numberList stateful args n₁).bind fun parts n₂ h₂ => ?_
    exact numbers_addItself (h₁.grows.trans h₂.grows) .rfl trivial (by simp) rfl
      (fun _ hn hkind => ⟨_, _, hkind, (h₂.grows.keeps.trans hn).stands h₁.stands,
        hn.standAll h₂.stand⟩) rfl
  | .filter filterName input args =>
    rw [number]
    refine (numbers_number stateful input nodes).bind fun (i, w) n₁ h₁ => ?_
    refine (numbers_addUnwatched (.identifier filterName) h₁.grows rfl trivial (by simp)).bind
      fun callee n₂ ⟨hgrows, hkeeps, _, hcallee⟩ => ?_
    refine (numbers_numberList stateful args n₂).bind fun parts n₃ h₃ => ?_
    have hfits : Fits n₃ (.call callee (i :: parts.map (·.1)) true) :=
      ⟨filterName, h₃.grows.keeps.kind? hcallee⟩
    have hstands (n' : Array Node) (hn : Extends n₃ n')
        (hkind : kind? n' n₃.size = some (.call callee (i :: parts.map (·.1)) true)) :
        Stands n' (.filter filterName input args) n₃.size :=
      have hlater := h₃.grows.keeps.trans hn
      ⟨_, _, _, hkind, hlater.kind? hcallee, (hkeeps.trans hlater).stands h₁.stands,
        hn.standAll h₃.stand⟩
    by_cases hstateful : stateful filterName = true
    · simp only [hstateful, if_true]
      refine numbers_addItself (hgrows.trans h₃.grows) (.swap _ _ _) hfits (by simp) hstateful
        hstands ?_
      rw [Expr.watch, if_pos hstateful]
    · simp only [hstateful]
      refine numbers_add (hgrows.trans h₃.grows) (.swap _ _ _) hfits (by simp)
        (Bool.eq_false_iff.2 hstateful) hstands fun n' hn => ?_
      rw [Expr.watch, if_neg hstateful]
      have hlater := hkeeps.trans (h₃.grows.keeps.trans hn)
      exact .union (.cons (h₁.watches.extend hlater) (h₃.watch.imp fun _ _ hw => hw.extend hn))
  | .assign target value =>
    rw [number]
    refine (numbers_numberPlace stateful target nodes).bind fun (i, w) n₁ h₁ => ?_
    refine (numbers_number stateful value n₁).bind fun (j, w') n₂ h₂ => ?_
    refine numbers_addItself (h₁.grows.trans h₂.grows) .rfl
      (fits_assignment (h₂.grows.keeps.standsPlace h₁.stands)) (by simp) rfl
      (fun _ hn hkind => ⟨_, _, hkind, (h₂.grows.keeps.trans hn).standsPlace h₁.stands,
        hn.stands h₂.stands⟩) ?_
    rw [Expr.watch, h₁.watches.constant, h₂.watches.constant]
    rfl
  | .unary op operand =>
    rw [number]
    refine (numbers_number stateful operand nodes).bind fun (i, w) n₁ h₁ => ?_
    exact numbers_add h₁.grows .rfl trivial (by simp) rfl
      (fun _ hn hkind => ⟨_, hkind, hn.stands h₁.stands⟩) fun _ hn => h₁.watches.extend hn
  | .binary op left right =>
    rw [number]
    refine (numbers_number stateful left nodes).bind fun (i, w) n₁ h₁ => ?_
    refine (numbers_number stateful right n₁).bind fun (j, w') n₂ h₂ => ?_
    exact numbers_add (h₁.grows.trans h₂.grows) .rfl trivial (by simp) rfl
      (fun _ hn hkind => ⟨_, _, hkind, (h₂.grows.keeps.trans hn).stands h₁.stands,
        hn.stands h₂.stands⟩)
      fun _ hn => (h₁.watches.extend (h₂.grows.keeps.trans hn)).both (h₂.watches.extend hn)
  | .logical op left right =>
    rw [number]
    refine (numbers_number stateful left nodes).bind fun (i, w) n₁ h₁ => ?_
    refine (numbers_number stateful right n₁).bind fun (j, w') n₂ h₂ => ?_
    refine numbers_addItself (h₁.grows.trans h₂.grows) .rfl trivial (by simp) rfl
      (fun _ hn hkind => ⟨_, _, hkind, (h₂.grows.keeps.trans hn).stands h₁.stands,
        hn.stands h₂.stands⟩) ?_
    rw [Expr.watch, h₁.watches.constant, h₂.watches.constant]
  | .conditional test consequent alternate =>
    rw [number]
    refine (numbers_number stateful test nodes).bind fun (i, w) n₁ h₁ => ?_
    refine (numbers_number stateful consequent n₁).bind fun (j, w') n₂ h₂ => ?_
    refine (numbers_number stateful alternate n₂).bind fun (k, w'') n₃ h₃ => ?_
    have h₂₃ := h₂.grows.keeps.trans h₃.grows.keeps
    refine numbers_addItself ((h₁.grows.trans h₂.grows).trans h₃.grows) .rfl trivial (by simp) rfl
      (fun _ hn hkind => ⟨_, _, _, hkind, (h₂₃.trans hn).stands h₁.stands,
        (h₃.grows.keeps.trans hn).stands h₂.stands, hn.stands h₃.stands⟩) ?_
    rw [Expr.watch, h₁.watches.constant, h₂.watches.constant, h₃.watches.constant]
termination_by structural e

theorem numbers_numberPlace (stateful : String → Bool) (p : Place) (nodes : Array Node) :
    Numbers nodes (numberPlace stateful p) (Numbered stateful nodes (.place p)) := by
  match p with
  | .name s =>
    rw [numberPlace]
    exact numbers_addItself (.refl nodes) .nil trivial (by simp) rfl (fun _ _ hkind => hkind) rfl
  | .member base key =>
    rw [numberPlace]
    refine (numbers_number stateful base nodes).bind fun (i, w) n₁ h₁ => ?_
    refine (numbers_addUnwatched (.identifier key) h₁.grows rfl trivial (by simp)).bind
      fun j n₂ ⟨hgrows, hkeeps, _, hkey⟩ => ?_
    refine numbers_addItself hgrows .rfl ⟨key, hkey⟩ (by simp) rfl
      (fun _ hn hkind => ⟨_, _, hkind, (hkeeps.trans hn).stands h₁.stands, hn.kind? hkey⟩) ?_
    rw [Expr.watch, Expr.placeConstant, h₁.watches.constant]
  | .element base key =>
    rw [numberPlace]
    refine (numbers_number stateful base nodes).bind fun (i, w) n₁ h₁ => ?_
    refine (numbers_number stateful key n₁).bind fun (j, w') n₂ h₂ => ?_
    refine numbers_addItself (h₁.grows.trans h₂.grows) .rfl trivial (by simp) rfl
      (fun _ hn hkind => ⟨_, _, hkind, (h₂.grows.keeps.trans hn).stands h₁.stands,
        hn.stands h₂.stands⟩) ?_
    rw [Expr.watch, Expr.placeConstant, h₁.watches.constant, h₂.watches.constant]
termination_by structural p

theorem numbers_numberList (stateful : String → Bool) (es : List Expr) (nodes : Array Node) :
    Numbers nodes (numberList stateful es) (NumberedAll stateful nodes es) := by
  match es with
  | [] =>
    rw [numberList]
    exact ⟨.refl nodes, rfl, (fun _ h => nomatch h), .nil, .nil⟩
  | e :: rest =>
    rw [numberList]
    refine (numbers_number stateful e nodes).bind fun part n₁ h₁ => ?_
    refine (numbers_numberList stateful rest n₁).bind fun parts n₂ h₂ => ?_
    refine ⟨h₁.grows.trans h₂.grows, ⟨_, _, rfl, h₂.grows.keeps.stands h₁.stands, h₂.stand⟩,
      fun other hother => ?_, .cons h₁.itself h₂.itself,
      .cons (h₁.watches.extend h₂.grows.keeps) h₂.watch⟩
    rcases List.mem_cons.1 hother with rfl | hmem
    · obtain ⟨kind, hkind⟩ := h₁.node
      exact ⟨kind, h₂.grows.keeps _ _ hkind⟩
    · exact h₂.node other hmem
termination_by structural es

theorem numbers_numberProperties (stateful : String → Bool) (ps : List (PropertyKey × Expr))
    (nodes : Array Node) :
    Numbers nodes (numberProperties stateful ps) (NumberedProperties stateful nodes ps) := by
  match ps with
  | [] =>
    rw [numberProperties]
    exact ⟨.refl nodes, rfl, .nil⟩
  | (key, e) :: rest =>
    rw [numberProperties_cons]
    refine (numbers_key key nodes).bind fun _ n₁ h₁ => ?_
    refine (numbers_number stateful e n₁).bind fun (value, w) n₂ h₂ => ?_
    have hgrows := h₁.grows_property h₂
    have hpush := Extends.push n₂ ⟨.property key.text value, w⟩
    change Numbers (n₂.push ⟨.property key.text value, w⟩)
      (numberProperties stateful rest >>= fun parts => pure ((n₂.size, w) :: parts)) _
    refine (numbers_numberProperties stateful rest _).bind fun parts n₃ h₃ => ?_
    have hkeeps := hpush.trans h₃.grows.keeps
    exact ⟨hgrows.trans h₃.grows,
      ⟨_, _, _, rfl, h₃.grows.keeps.kind? (kind?_push_size _ _), hkeeps.stands h₂.stands,
        h₃.stand⟩,
      .cons (h₂.watches.extend hkeeps) h₃.watch⟩
termination_by structural ps

end

/-! ## The arena of a program -/

/-- The nodes of an arena are in order: the root is the last one and the only program, a node comes
after its parts, which are of the kinds that belong there, and every node but the root is referred
to from one place, literals that were keys aside. -/
structure WellFormed (a : Arena) : Prop where
  root_last : a.nodes.size = a.root + 1
  root_program : ∃ body, kind? a.nodes a.root = some (.program body)
  program_root : ∀ {id body}, kind? a.nodes id = some (.program body) → id = a.root
  children_lt : ∀ {id kind}, kind? a.nodes id = some kind → ∀ child ∈ kind.children, child < id
  fits : ∀ {id kind}, kind? a.nodes id = some kind → Fits a.nodes kind
  once : ∀ id < a.root, (references a.nodes).count id = 1 ∨
    (references a.nodes).count id = 0 ∧ LeftByKey a.nodes id

lemma exists_numberedAll (stateful : String → Bool) (body : List Expr) :
    ∃ parts nodes w, NumberedAll stateful #[] body parts nodes ∧
      (ofProgram stateful body).nodes = nodes.push ⟨.program (parts.map (·.1)), w⟩ :=
  ⟨_, _, _, numbers_numberList stateful body #[], rfl⟩

lemma root_ofProgram {a : Arena} {node : Node} (h : a.nodes = nodes.push node) :
    a.root = nodes.size := by
  rw [root, h, Array.size_push, Nat.add_sub_cancel]

/-- The arena of a program is well formed. -/
lemma wellFormed_ofProgram (stateful : String → Bool) (body : List Expr) :
    (ofProgram stateful body).WellFormed := by
  obtain ⟨parts, nodes, w, hparts, hnodes⟩ := exists_numberedAll stateful body
  have hroot := root_ofProgram hnodes
  have htidy : Tidy (ofProgram stateful body).nodes [nodes.size] := by
    rw [hnodes]
    exact (hparts.grows.tidy [] .empty).push .rfl trivial
  have hsize : (ofProgram stateful body).nodes.size = nodes.size + 1 := by
    rw [hnodes, Array.size_push]
  refine ⟨by rw [hsize, hroot], ⟨_, by rw [hroot, hnodes, kind?_push_size]⟩, fun hkind => ?_,
    htidy.children_lt, htidy.fits, fun id hid => ?_⟩
  · rw [hroot]
    rw [hnodes] at hkind
    rcases kind?_push hkind with hold | ⟨hid, -⟩
    · exact nomatch hparts.grows.programs hold
    · exact hid
  · rw [hroot] at hid
    have honce := htidy.once id (by omega)
    have hother : [nodes.size].count id = 0 := by
      rw [List.count_eq_zero, List.mem_singleton]
      omega
    rw [hother] at honce
    exact honce

end DataBinding.Arena
