import PolyIdeal.Coefficient.Scalar
import PolyIdeal.Polynomial.Conversion
import PolyIdeal.Polynomial.Leading
import PolyIdeal.Univariate.Calculus

/-!
# Polynomials over any domain

A polynomial together with the domain of its coefficients. Two of them are combined only over one
domain, but they are compared over all: coefficients of different domains can be equal.
-/

namespace PolyIdeal

structure AnyPolynomial where
  domain : Domain
  polynomial : Polynomial domain.Elem

namespace AnyPolynomial

def nvars (p : AnyPolynomial) : Nat :=
  p.polynomial.nvars

def isZero (p : AnyPolynomial) : Bool :=
  p.polynomial.isZero

def text (p : AnyPolynomial) : String :=
  p.polynomial.text

def describe (p : AnyPolynomial) : String :=
  p.polynomial.describe

def terms (p : AnyPolynomial) : List (Monomial × Scalar) :=
  p.polynomial.scalarTerms

/-- The polynomial, if its coefficients are of the given domain. -/
def inDomain? (D : Domain) (p : AnyPolynomial) : Option (Polynomial D.Elem) :=
  if h : p.domain = D then some (h ▸ p.polynomial) else none

/-- Some polynomials, if all of them are over the given domain. -/
def allInDomain? (D : Domain) (ps : List AnyPolynomial) : Option (List (Polynomial D.Elem)) :=
  ps.mapM (inDomain? D)

/-- The polynomial `q` as an operand of `p`. -/
def operand (p q : AnyPolynomial) : Except Failure (Polynomial p.domain.Elem) :=
  if p.nvars ≠ q.nvars then .error (.invalid (.differentRings p.nvars q.nvars))
  else
    match q.inDomain? p.domain with
    | some q => .ok q
    | none => .error (.invalid (.differentDomains p.domain.text q.domain.text))

end AnyPolynomial

def Operator.onPolynomials {R : Type} [Zero R] [DecidableEq R] [Add R] [Sub R] [Mul R] [Neg R] :
    Operator → Polynomial R → Polynomial R → Except Failure (Polynomial R)
  | add => Polynomial.add
  | sub => Polynomial.sub
  | mul => Polynomial.mul

namespace AnyPolynomial

def combine (op : Operator) (p q : AnyPolynomial) : Except Failure AnyPolynomial := do
  let q ← p.operand q
  return ⟨p.domain, ← op.onPolynomials p.polynomial q⟩

def same (p q : AnyPolynomial) : Bool :=
  p.nvars == q.nvars && p.terms.length == q.terms.length &&
    (p.terms.zip q.terms).all fun (s, t) => s.1 == t.1 && s.2.same t.2

/-- Whether the polynomial is the constant for a number; this is not decided for a number that has
no counterpart in the domain. -/
def equalsScalar? (p : AnyPolynomial) (s : Scalar) : Option Bool :=
  (Coefficient.ofScalar? (R := p.domain.Elem) s).map fun c =>
    if c = 0 then p.isZero else p.polynomial.terms == [(Monomial.unit p.nvars, c)]

def sameLists (ps qs : List AnyPolynomial) : Bool :=
  ps.length == qs.length && (ps.zip qs).all fun (p, q) => p.same q

/-- The leading coefficient of a univariate polynomial. -/
def univariateLeadingCoefficient (p : AnyPolynomial) : Except Failure Scalar :=
  match p.polynomial with
  | .univariate f =>
    match f.leadingCoefficient? with
    | some c => .ok (Coefficient.toScalar c)
    | none => .error (.invalid .zeroWithoutLeadingCoefficient)
  | .multinomial _ => .error .noSuchOperation

def derivative (p : AnyPolynomial) : Except Failure AnyPolynomial :=
  match p with
  | ⟨D, .univariate f⟩ => .ok ⟨D, .univariate f.derivative⟩
  | _ => .error .noSuchOperation

def antiderivative (p : AnyPolynomial) : Except Failure AnyPolynomial :=
  match p with
  | ⟨D, .univariate f⟩ => do return ⟨D, .univariate (← f.antiderivative)⟩
  | _ => .error .noSuchOperation

def setDomain (p : AnyPolynomial) (D : Domain) : Except Failure AnyPolynomial := do
  return ⟨D, ← p.polynomial.setDomain⟩

end AnyPolynomial

end PolyIdeal
