import PolyIdeal.Polynomial.Leading

/-!
# S-polynomials
-/

namespace PolyIdeal

variable {R : Type} [Zero R] [One R] [DecidableEq R] [Add R] [Sub R] [Mul R] [Neg R] [Coefficient R]

/-- The monomials that take `lmf` and `lmg` to `m`. Both products have to be the same. -/
def Monomial.shifts (m lmf lmg : Monomial) : Except Failure (Monomial × Monomial) :=
  match div? m lmf, div? m lmg with
  | some nu, some mu =>
    if mul nu lmf = mul mu lmg then .ok (nu, mu)
    else .error (.arithmetic (.shiftedMonomials (toInts nu) lmf.toInts (toInts mu) lmg.toInts))
  | _, _ => .error .noSuchOperation

/-- The multiple `c⁻¹ * X^shift * f`, where `c` is the leading coefficient. -/
def Polynomial.raisedBy (f : Polynomial R) (shift : Monomial) (lc : R) :
    Except Failure (Polynomial R) := do
  let c ← Coefficient.inverse lc
  f.mulTerm shift c

/-- The difference of multiples of `f` and `g` in which their leading terms cancel at the least
common multiple. -/
def sPolynomial (f g : Polynomial R) (order : Order) (tolerance : Option Tolerance) :
    Except Failure (Polynomial R) := do
  let (lmf, lcf) ← f.leadingTerm order
  let (lmg, lcg) ← g.leadingTerm order
  Monomial.checkArity lmf.toInts lmg.toInts
  let (nu, mu) ← Monomial.shifts (Monomial.lcm lmf lmg) lmf lmg
  let s ← (← f.raisedBy nu lcf).sub (← g.raisedBy mu lcg)
  s.chop tolerance

/-- The pairs `(i, j)` with `i < j < n` in lexicographic order. -/
def criticalPairs (n : Nat) : List (Nat × Nat) :=
  (List.range n).flatMap fun i => (List.range' (i + 1) (n - (i + 1))).map fun j => (i, j)

end PolyIdeal
