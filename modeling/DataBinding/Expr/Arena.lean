import DataBinding.Expr.Watching

/-!
# Expressions as numbered nodes

The tree of a program as a list of nodes that refer to each other by number, each with its
watch.  A node comes after all its parts, the program last.  A literal that stands for a key
leaves a node of its own before the property; like the name of a member and the name of a filter
it takes no part in the watching.
-/

namespace DataBinding

/-- What a node is; its parts are given by their numbers. -/
inductive NodeKind where
  | program (body : List Nat)
  | literal (l : Literal)
  | array (items : List Nat)
  | object (properties : List Nat)
  | property (key : String) (value : Nat)
  | identifier (name : String)
  | this
  | locals
  | member (base key : Nat) (computed : Bool)
  | call (callee : Nat) (args : List Nat) (isFilter : Bool)
  | assignment (target value : Nat)
  | unary (op : UnaryOp) (operand : Nat)
  | binary (op : BinaryOp) (left right : Nat)
  | logical (op : LogicalOp) (left right : Nat)
  | conditional (test consequent alternate : Nat)

/-- A node and its watch. -/
structure Node where
  kind : NodeKind
  watch : Watch Nat

/-- Numbered nodes; the root is the last one. -/
structure Arena where
  nodes : Array Node

namespace Arena

/-- The number of the root. -/
def root (a : Arena) : Nat := a.nodes.size - 1

/-- The arena without its watches. -/
def bare (a : Arena) : Arena := ⟨a.nodes.map fun n => { n with watch := .still false }⟩

/-! ## Numbering -/

/-- A step of the numbering. -/
abbrev Numbering : Type → Type := StateM (Array Node)

/-- Adds a node and returns its number. -/
def add (kind : NodeKind) (watch : Watch Nat) : Numbering (Nat × Watch Nat) := fun nodes =>
  ((nodes.size, watch), nodes.push ⟨kind, watch⟩)

/-- Adds a node that is watched itself. -/
def addItself (kind : NodeKind) (constant : Bool) : Numbering (Nat × Watch Nat) := fun nodes =>
  ((nodes.size, .itself nodes.size constant),
    nodes.push ⟨kind, .itself nodes.size constant⟩)

/-- Adds a node that takes no part in the watching. -/
def addUnwatched (kind : NodeKind) : Numbering Nat := fun nodes =>
  (nodes.size, nodes.push ⟨kind, .still false⟩)

mutual

/-- Numbers an expression. -/
def number (stateful : String → Bool) : Expr → Numbering (Nat × Watch Nat)
  | .literal l => add (.literal l) (.still true)
  | .this => add .this (.still false)
  | .locals => add .locals (.still false)
  | .array items => do
    let parts ← numberList stateful items
    add (.array (parts.map (·.1))) (.union (parts.map (·.2)))
  | .object properties => do
    let parts ← numberProperties stateful properties
    add (.object (parts.map (·.1))) (.union (parts.map (·.2)))
  | .place p => numberPlace stateful p
  | .call callee args => do
    let (callee, _) ← number stateful callee
    let args ← numberList stateful args
    addItself (.call callee (args.map (·.1)) false) false
  | .filter filterName input args => do
    let input ← number stateful input
    let callee ← addUnwatched (.identifier filterName)
    let args ← numberList stateful args
    let kind := .call callee (input.1 :: args.map (·.1)) true
    if stateful filterName then addItself kind false
    else add kind (.union (input.2 :: args.map (·.2)))
  | .assign target value => do
    let (target, w) ← numberPlace stateful target
    let (value, w') ← number stateful value
    addItself (.assignment target value) (w.constant && w'.constant)
  | .unary op operand => do
    let (operand, w) ← number stateful operand
    add (.unary op operand) w
  | .binary op left right => do
    let (left, w) ← number stateful left
    let (right, w') ← number stateful right
    add (.binary op left right) (.both w w')
  | .logical op left right => do
    let (left, w) ← number stateful left
    let (right, w') ← number stateful right
    addItself (.logical op left right) (w.constant && w'.constant)
  | .conditional test consequent alternate => do
    let (test, w) ← number stateful test
    let (consequent, w') ← number stateful consequent
    let (alternate, w'') ← number stateful alternate
    addItself (.conditional test consequent alternate) (w.constant && w'.constant && w''.constant)

/-- Numbers a place. -/
def numberPlace (stateful : String → Bool) : Place → Numbering (Nat × Watch Nat)
  | .name s => addItself (.identifier s) false
  | .member base key => do
    let (base, w) ← number stateful base
    let key ← addUnwatched (.identifier key)
    addItself (.member base key false) w.constant
  | .element base key => do
    let (base, w) ← number stateful base
    let (key, w') ← number stateful key
    addItself (.member base key true) (w.constant && w'.constant)

/-- Numbers several expressions. -/
def numberList (stateful : String → Bool) : List Expr → Numbering (List (Nat × Watch Nat))
  | [] => return []
  | e :: rest => do
    let part ← number stateful e
    return part :: (← numberList stateful rest)

/-- Numbers the properties of an object literal. -/
def numberProperties (stateful : String → Bool) :
    List (PropertyKey × Expr) → Numbering (List (Nat × Watch Nat))
  | [] => return []
  | (key, e) :: rest => do
    match key with
    | .literal l => discard (addUnwatched (.literal l))
    | .name _ => pure ()
    let (value, w) ← number stateful e
    let part ← add (.property key.text value) w
    return part :: (← numberProperties stateful rest)

end

/-- The arena of a program. -/
def ofProgram (stateful : String → Bool) (body : List Expr) : Arena :=
  let numbered : Numbering Unit := do
    let parts ← numberList stateful body
    discard (add (.program (parts.map (·.1))) (.still (parts.all (·.2.constant))))
  ⟨(numbered.run #[]).2⟩

/-- The numbers of the statements. -/
def body (a : Arena) : List Nat :=
  match a.nodes[a.root]? with
  | some ⟨.program body, _⟩ => body
  | _ => []

/-- The numbers of the nodes that determine the value of the only statement; none where they would
be the statement itself. -/
def inputs (a : Arena) : List Nat :=
  match a.body with
  | [statement] =>
    match a.nodes[statement]? with
    | some node => if node.watch.watched = [statement] then [] else node.watch.watched
    | none => []
  | _ => []

end Arena

end DataBinding
