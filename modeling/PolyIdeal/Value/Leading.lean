import PolyIdeal.Exchange.SparseRing
import PolyIdeal.Exchange.Tokens
import PolyIdeal.Order.Induced
import PolyIdeal.Order.Insertion
import PolyIdeal.Value.Basis

/-!
# Orders on polynomials over any domain

Leading terms, comparisons and sorted forms under an order that was chosen.
-/

namespace PolyIdeal

namespace AnyPolynomial

/-- The leading term; that of zero is refused before the order is looked at. -/
def leadingTerm (p : AnyPolynomial) (choice : OrderChoice) :
    Except Failure (Monomial × Scalar) :=
  if p.isZero then .error (.invalid .zeroWithoutLeadingMonomial)
  else do
    let (m, c) ← p.polynomial.leadingTerm (← choice.direct)
    return (m, Coefficient.toScalar c)

/-- The multiple with leading coefficient one; only several variables need an order. -/
def monic (p : AnyPolynomial) (choice : Option OrderChoice) : Except Failure AnyPolynomial :=
  match p with
  | ⟨D, .univariate f⟩ => do return ⟨D, .univariate (← f.monic)⟩
  | ⟨D, .multinomial f⟩ =>
    if f.isZero then .ok p
    else
      match choice with
      | none => .error .noSuchOperation
      | some choice => do
        return ⟨D, ← (Polynomial.multinomial f).monic (← choice.direct)⟩

def compare (choice : OrderChoice) (p q : AnyPolynomial) : Except Failure Ordering := do
  (← choice.direct).comparePolynomials p.polynomial q.polynomial

def sorted (choice : OrderChoice) (ps : List AnyPolynomial) : Except Failure (List AnyPolynomial) :=
  Insertion.sort (fun p q => do return (← compare choice p q) == .lt) ps

def tokens (choice : OrderChoice) (ps : List AnyPolynomial) :
    Except Failure (List (Tokens Scalar)) :=
  ps.mapM fun p => do
    let t ← Tokens.ofPolynomial (← choice.direct) p.polynomial
    return ⟨t.columns, t.rows.map fun (c, m) => (Coefficient.toScalar c, m)⟩

end AnyPolynomial

def AnyBasis.joined (f g : AnyPolynomial) (choice : OrderChoice) (tolerance : Option Tolerance) :
    Except Failure AnyPolynomial := do
  let _ ← f.leadingTerm choice
  sPolynomial f g (← choice.direct) tolerance

namespace SparseRing

def toAnyPolynomial (ring : SparseRing) (terms : List RawTerm) : Except Failure AnyPolynomial := do
  let terms ← terms.mapM fun (m, c) =>
    return (m, ← Coefficient.ofOperand? (R := ring.domain.Elem) c)
  -- A ring without generators is refused before its terms are ranked.
  let _ ← Builder.create (R := ring.domain.Elem) ring.generators
  let terms ← ring.listed (terms.filter fun term => term.2 ≠ 0)
  return ⟨ring.domain, ← ring.toPolynomial terms⟩

/-- The terms of the ring element of a polynomial, as the ring lists them. -/
def ofAnyPolynomial (ring : SparseRing) (p : AnyPolynomial) :
    Except Failure (List (List Int × Scalar)) := do
  let terms ← ring.ofTerms (R := ring.domain.Elem) p.nvars p.terms
  return (← ring.listed terms).map fun (m, c) => (m, Coefficient.toScalar c)

end SparseRing

end PolyIdeal
