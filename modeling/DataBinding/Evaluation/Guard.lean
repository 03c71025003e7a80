import DataBinding.Error
import DataBinding.Heap.Member
import DataBinding.Value.Equality

/-!
# Guards

Expressions come from templates, which are not trusted.  Wherever evaluation follows a member or
calls a function, a guard refuses what leads to the machinery of the host: members that reach a
constructor or a prototype, objects that look like a window, a document node or their own
constructor, and the functions that compile text or rebind a receiver.
-/

namespace DataBinding

/-- Members that expressions cannot name. -/
def forbiddenMembers : List String :=
  ["constructor", "__proto__", "__defineGetter__", "__defineSetter__", "__lookupGetter__",
    "__lookupSetter__"]

namespace Heap

/-- Whether an object is its own value of a member. -/
def isOwnMember (h : Heap) (o : Nat) (key : String) : Bool := (h.get o key).same (.object o)

/-- Whether an object looks like a node of a document, or like a collection of such. -/
def looksLikeNode (h : Heap) (o : Nat) : Bool :=
  let has := fun key => (h.get o key).truthy
  has "children" && (has "nodeName" || (has "prop" && has "attr" && has "find"))

/-- What is wrong with a value that an expression may not hold; nothing if it may. -/
def forbidden? (h : Heap) : Value → Option Forbidden
  | .object o =>
    if h.isOwnMember o "window" then some .window
    else if h.looksLikeNode o then some .documentNode
    else if h.isOwnMember o "constructor" then some .selfConstructor
    else none
  | .function (.intrinsic .functionConstructor) => some (.constructorOf "Function")
  | .function (.intrinsic .objectConstructor) => some (.constructorOf "Object")
  | _ => none

end Heap

/-- What is wrong with a value that an expression may not call; nothing if it may. -/
def Value.uncallable? : Value → Option Forbidden
  | .function (.intrinsic .functionConstructor) => some (.constructorOf "Function")
  | .function (.intrinsic .call) => some (.reflectiveCall "call")
  | .function (.intrinsic .apply) => some (.reflectiveCall "apply")
  | .function (.intrinsic .bind) => some (.reflectiveCall "bind")
  | _ => none

end DataBinding
