import DataBinding.Compute
import DataBinding.Heap

/-!
# The store and its host

Everything that evaluation can read and write: the heap, and whatever state `σ` the host program
keeps for itself.  The host supplies the functions that scripts can call by reference and the
behaviours of filters; a host function works on the store like an evaluation does.
-/

namespace DataBinding

/-- The heap, and the host's own state. -/
structure Store (σ : Type) where
  heap : Heap
  host : σ

/-- What the host lends to evaluation: its functions, by name, receiver and arguments, and the
behaviours of filters, by name and arguments. -/
structure Library (σ : Type) where
  call : String → Value → List Value → Compute (Store σ) Value
  filter : String → List Value → Compute (Store σ) Value

namespace Store

variable {σ : Type} {α : Type}

/-- Reads the heap. -/
def reading (f : Heap → α) : Compute (Store σ) α := .read fun s => f s.heap

/-- Reads what may have no end to read. -/
def readingEndless (f : Heap → Option α) : Compute (Store σ) α := do
  .ofOption (← reading f)

/-- Replaces the heap and yields a value, as the functions that make containers do. -/
def making (f : Heap → α × Heap) : Compute (Store σ) α :=
  .alter fun s => ((f s.heap).1, { s with heap := (f s.heap).2 })

/-- Changes the heap. -/
def changing (f : Heap → Heap) : Compute (Store σ) Unit :=
  .change fun s => { s with heap := f s.heap }

/-- Changes the heap, unless the change is refused or has no end. -/
def changingIf (f : Heap → Option (Except Error Heap)) : Compute (Store σ) Unit := do
  let h ← Compute.ofExcept (← readingEndless f)
  changing fun _ => h

end Store

end DataBinding
