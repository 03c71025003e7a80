import DataBinding.Expression
import DataBinding.Script.Template
import DataBinding.Tree.Task

/-!
# The actions of scripts

A script is a list of actions, and so is what a procedure of a script does.  Each action names the
scope it works on, or else works on the scope that its procedure was called with.
-/

namespace DataBinding.Script

/-- An action on values alone. -/
inductive ValueDeed where
  | make (v : Template)
  | getMember (v : Template) (key : String)
  | hasMember (v : Template) (key : String)
  | setMember (v : Template) (key : String) (x : Template)
  | getProperty (v : Template) (key : String)
  | getOwn (v : Template) (key : String)
  | hasProperty (v : Template) (key : String)
  | setOwn (v : Template) (key : String) (x : Template)
  | removeOwn (v : Template) (key : String)
  | keys (v : Template)
  | clear (v : Template)
  | proto (v : Template)
  | getItem (v : Template) (index : Nat)
  | setItem (v : Template) (index : Nat) (x : Template)
  | push (v x : Template)
  | pop (v : Template)
  | setLength (v : Template) (length : Nat)
  | length (v : Template)
  | deepCopy (v : Template)
  | shallowCopy (v : Template)
  | compare (v x : Template)
  | asList (v : Template)
  | call (v this : Template) (args : List Template)

/-- An action on expressions, away from any scope. -/
inductive ExpressionDeed where
  | eval (source : String) (context : Template)
  | assign (source : String) (context x : Template)
  | inputs (source : String) (context : Template)
  | same (source other : String)
  | cached
  | clear
  | register (name filter : String)
  | hasFilter (name : String)

/-- Where the value of a watch comes from, once its body has run. -/
inductive Origin where
  | property (key : String)
  | expression (source : String)
  | failure (text : String)
  | counter (name : String)
  | fixed (v : Template)
  | nothing

mutual

/-- An action.  A tolerant one that fails inside a procedure is noted, and the rest goes on; the
value that an action gives is put into its register. -/
inductive Action where
  | mk (scope : Option String) (locals : Option Template) (register : Option String)
      (tolerant : Bool) (deed : Deed)

/-- What an action does. -/
inductive Deed where
  | value (deed : ValueDeed)
  | expression (deed : ExpressionDeed)
  | set (key : String) (v : Template)
  | get (key : String)
  | has (key : String)
  | data
  | eval (source : String)
  | evalBody (id : String) (body : List Action) (result : Option Reading)
  | child (name : String) (isolated : Bool) (parent : Option String)
  | info
  | destroy
  | digest
  | phase
  | watch (id : String) (watch : Reading) (byValue : Bool) (body : List Action)
  | watchExpression (id source : String) (byValue : Bool) (body : List Action)
  | watchGroup (id : String) (watches : List Reading) (body : List Action)
  | watchCollection (id : String) (watch : Reading) (body : List Action)
  | unwatch (id : String)
  | apply (id : String) (body : List Action) (result : Option Reading)
  | applySource (source : String)
  | queue (queue : Queue) (id : String) (body : List Action)
  | flush
  | advance (milliseconds : Nat)
  | currentClock
  | listen (id event : String) (body : List Action)
  | unlisten (id : String)
  | emit (event : String) (args : List Template)
  | broadcast (event : String) (args : List Template)
  | stop
  | prevent
  | report (text : String)
  | fail (text : String)
  | note (v : Template)
  | once (id : String) (body : List Action)

/-- What a watch computes: it runs a body, and then takes its value from the origin. -/
inductive Reading where
  | mk (traced : Bool) (body : List Action) (origin : Origin)

end

instance : Inhabited Deed := ⟨.phase⟩

instance : Inhabited Action := ⟨.mk none none none false .phase⟩

instance : Inhabited Reading := ⟨.mk false [] .nothing⟩

/-- The procedures of a script. -/
inductive Procedure where
  | watch (id : String) (watch : Reading)
  | listener (id : String) (body : List Action)
  | task (id : String) (body : List Action)
  | body (id : String) (body : List Action) (result : Option Reading)
  | hearing (id : String) (body : List Action)

end DataBinding.Script
