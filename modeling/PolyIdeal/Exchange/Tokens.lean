import PolyIdeal.Polynomial.Basic

/-!
# Token arrays

A polynomial as rows of a coefficient and the exponents of its monomial, from the highest monomial.
-/

namespace PolyIdeal

structure Tokens (R : Type) where
  columns : Nat
  rows : List (R × Monomial)

namespace Tokens

variable {R : Type} [Zero R] [DecidableEq R]

def ofPolynomial (order : Order) (p : Polynomial R) : Except Failure (Tokens R) := do
  p.monomials.forM fun m => order.check m.toInts
  return ⟨p.nvars + 1, (order.descending p.monomials).map fun m => (p.coefficient m, m)⟩

end Tokens

end PolyIdeal
