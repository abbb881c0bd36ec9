import PolyIdeal.Value.IdealResidue
import PolyIdeal.Value.RingElement

/-!
# Equality of values

Polynomials equal the numbers that they are the constants of. A set keeps a value unless it holds an
equal one with the same key; the keys of a constant polynomial and of its coefficient are the same.
-/

namespace PolyIdeal

namespace Value

mutual

def same : Value → Value → Bool
  | nothing, nothing => true
  | text s, text t => s == t
  | number s, number t => s.same t
  | list vs, list ws => sameAll vs ws
  | polynomial p, polynomial q => p.same q
  | polynomial p, number s => (p.equalsScalar? s).getD false
  | number s, polynomial p => (p.equalsScalar? s).getD false
  | residueClass c, residueClass d => c.same d
  | idealResidue c, idealResidue d => c.same d
  | object i, object j => i == j
  | _, _ => false

def sameAll : List Value → List Value → Bool
  | [], [] => true
  | v :: vs, w :: ws => v.same w && sameAll vs ws
  | _, _ => false

end

end Value

/-- By what coefficients are told apart in a set: residues by value and modulus, others as
numbers. -/
inductive CoefficientKey
  | number (q : Rat)
  | residue (value modulus : Nat)
  deriving DecidableEq

/-- By what polynomials are told apart in a set; a constant goes by its coefficient. -/
inductive PolynomialKey
  | constant (c : CoefficientKey)
  | terms (nvars : Nat) (terms : List (Monomial × CoefficientKey))
  deriving DecidableEq

/-- By what values are told apart in a set. -/
inductive Key
  | polynomial (p : PolynomialKey)
  | residueClass (value modulus : PolynomialKey)
  | idealResidue (p : PolynomialKey) (basis : List PolynomialKey)
  | text (s : String)
  | nothing
  | object (handle : Nat)
  deriving DecidableEq

namespace Scalar

def key : Scalar → CoefficientKey
  | integer n => .number n
  | rational q => .number q
  | real x => .number x.toRat
  | residue n r => .residue r.val n

end Scalar

namespace AnyPolynomial

def key (p : AnyPolynomial) : PolynomialKey :=
  match p.terms with
  | [] => .constant (Coefficient.toScalar (0 : p.domain.Elem)).key
  | [(m, c)] =>
    if m = Monomial.unit p.nvars then .constant c.key else .terms p.nvars [(m, c.key)]
  | terms => .terms p.nvars (terms.map fun (m, c) => (m, c.key))

end AnyPolynomial

namespace Ring

def key : (A : Ring) → A.Elem → PolynomialKey
  | domain D, c => .constant (Coefficient.toScalar (R := D.Elem) c).key
  | polynomials K, p => (⟨K, .univariate p⟩ : AnyPolynomial).key

end Ring

namespace Value

/-- The key of a value; lists have none. -/
def key? : Value → Option Key
  | nothing => some .nothing
  | text s => some (.text s)
  | number s => some (.polynomial (.constant s.key))
  | list _ => none
  | polynomial p => some (.polynomial p.key)
  | residueClass c =>
    some (.residueClass (c.ring.key c.residue.value) (c.ring.key c.residue.modulus))
  | idealResidue c => some (.idealResidue c.polynomial.key (c.basis.map AnyPolynomial.key))
  | object handle => some (.object handle)

/-- The number of values that a set of them keeps. -/
def distinct (vs : List Value) : Except Failure Nat := do
  let kept ← vs.foldlM (fun (kept : List (Key × Value)) v =>
    match v.key? with
    | none => .error .noOperator
    | some key =>
      .ok (if kept.any fun (k, w) => k == key && w.same v then kept else kept ++ [(key, v)])) []
  return kept.length

end Value

end PolyIdeal
