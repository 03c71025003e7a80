import DataBinding.Error
import DataBinding.Json.Reader

/-!
# Configuration

The settings of a scope tree, read from a JSON document: an object whose members may come in any
order and may be missing, or an array of the settings in their order, as many as are given.
-/

namespace DataBinding

/-- The settings of a scope tree: how many extra passes a digest may take, and for how many
milliseconds deferred digests and applies wait. -/
structure Config where
  digestTtl : Nat := 10
  evalAsyncDelay : Nat := 0
  applyAsyncDelay : Nat := 0
deriving DecidableEq, Repr

namespace Config

/-- Settings that a tree can be built with. -/
def validate (c : Config) : Except Error Config :=
  if c.digestTtl = 0 then .error (.configuration .zeroTtl) else .ok c

/-- The names of the settings. -/
def names : List String := ["digest_ttl", "eval_async_delay_ms", "apply_async_delay_ms"]

/-- The configuration with the setting at a position replaced. -/
def set (c : Config) (position : Nat) (n : Nat) : Config :=
  match position with
  | 0 => { c with digestTtl := n }
  | 1 => { c with evalAsyncDelay := n }
  | _ => { c with applyAsyncDelay := n }

/-- The setting that a document gives. -/
def setting? : Json.Source → Option Nat
  | .number n => n.toWord?
  | _ => none

/-- Settings by position, from `position` on. -/
def ofItems? (position : Nat) (c : Config) : List Json.Source → Option Config
  | [] => some c
  | d :: rest => do
    if names.length ≤ position then none
    else ofItems? (position + 1) (c.set position (← setting? d)) rest

/-- Settings by name.  A setting comes at most once, which `seen` keeps track of; other members are
skipped. -/
def ofMembers? (seen : List Nat) (c : Config) : List (Option String × Json.Source) → Option Config
  | [] => some c
  | (key, d) :: rest => do
    match names.idxOf? (← key) with
    | some position =>
      if position ∈ seen then none
      else ofMembers? (position :: seen) (c.set position (← setting? d)) rest
    | none => ofMembers? seen c rest

/-- The settings that a document gives. -/
def ofSource? : Json.Source → Option Config
  | .array items => ofItems? 0 {} items
  | .object members => ofMembers? [] {} members
  | _ => none

/-- The configuration that a text describes. -/
def ofText (text : String) : Except Error Config :=
  match (Json.Source.read? text).bind ofSource? with
  | some c => c.validate
  | none => .error (.configuration .malformed)

end Config

end DataBinding
