import DataBinding.Script.Snapshot
import DataBinding.Error
import DataBinding.Value.Equality

/-!
# The replies of scripts

What an action replies, drawn so that nothing that happens later can change it.
-/

namespace DataBinding

/-- How two values compare under each of the equalities. -/
structure Comparison where
  same : Bool
  strict : Bool
  loose : Bool
  deep : Bool
deriving DecidableEq, Repr

/-- Compares two values under all equalities; `none` if one of them has no end. -/
def Heap.compare? (h : Heap) (v w : Value) : Option Comparison := do
  return ⟨v.same w, v.strictEq w, ← h.looseEq? v w, ← h.deepEq? v w⟩

namespace Script

/-- What is to be known of a scope and its tree; scopes are given by their names. -/
structure ScopeInfo where
  phase : Option Phase
  watchers : Nat
  children : List String
  parent : Option String
  root : String
  isRoot : Bool
  isolated : Bool
  destroyed : Bool
  ttl : Nat
  cached : Nat

/-- What an action replies. -/
inductive Reply where
  | nothing
  | value (v : Snapshot)
  | optional (v : Option Snapshot)
  | flag (b : Bool)
  | flags (bs : List Bool)
  | count (n : Nat)
  | keys (names : List String)
  | length (n : Nat)
  | listing (isList : Bool) (items : List Snapshot)
  | comparison (there back : Comparison)
  | outcomes (results : List (Except Error Snapshot))
  | scope (info : ScopeInfo)
  | event (name target : String) (prevented : Bool)
  | failure (e : Error)

end Script

end DataBinding
