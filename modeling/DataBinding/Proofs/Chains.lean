import DataBinding.Proofs.Respect

/-!
# Chains of calls

Evaluation is held to a bound on the length of chains of functions that call functions.  A larger
bound changes nothing but that more evaluations come to their ends: an evaluation with a larger
bound follows the one with the smaller bound, from the same store, and from every store that is
related to it in a way that evaluation respects.
-/

namespace DataBinding

open Compute (Follows)

variable {σ : Type}

namespace Expression

variable (e : Expression) {lib : Library σ} {S : Store σ → Store σ → Prop} (hS : Respected lib S)
  {n n' : ℕ} (h : n ≤ n')

include hS h

lemma follows_eval (context : Value) (locals : Option Value) :
    Follows S (e.eval lib n context locals) (e.eval lib n' context locals) :=
  hS.evalStatements (e.env n context locals) h _ _

lemma follows_evalPart (part : Expr) (context : Value) (locals : Option Value) :
    Follows S (e.evalPart part lib n context locals) (e.evalPart part lib n' context locals) :=
  hS.eval (e.env n context locals) h _ _

end Expression

end DataBinding
