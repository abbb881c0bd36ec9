import PolyIdeal.Value.Basic
import PolyIdeal.Value.Basis

/-!
# Residues modulo ideals over any domain
-/

namespace PolyIdeal

def Operator.onIdealResidues {R : Type} [Zero R] [One R] [DecidableEq R] [Add R] [Sub R] [Mul R]
    [Neg R] [Coefficient R] :
    Operator → IdealResidue R → IdealResidue R → Traced (Event R) (IdealResidue R)
  | add => IdealResidue.add
  | sub => IdealResidue.sub
  | mul => IdealResidue.mul

namespace AnyIdealResidue

def create (f : AnyPolynomial) (basis : List AnyPolynomial) (order : OrderChoice)
    (tolerance : Option Tolerance) : Traced Note AnyIdealResidue := do
  return ⟨← f.reduce basis order tolerance, basis, order, tolerance⟩

def classOf (c : AnyIdealResidue) (f : AnyPolynomial) : Traced Note AnyIdealResidue :=
  create f c.basis c.order c.tolerance

/-- The residue over a domain, if all its polynomials are over that domain. -/
def inDomain? (D : Domain) (c : AnyIdealResidue) : Option (IdealResidue D.Elem) := do
  let p ← c.polynomial.inDomain? D
  let basis ← AnyPolynomial.allInDomain? D c.basis
  return ⟨p, basis, c.order, c.tolerance⟩

def ofDomain {D : Domain} (c : IdealResidue D.Elem) : AnyIdealResidue :=
  ⟨⟨D, c.polynomial⟩, PolyIdeal.ofDomain D c.basis, c.order, c.tolerance⟩

def sameIdeal (c d : AnyIdealResidue) : Bool :=
  AnyPolynomial.sameLists c.basis d.basis && c.order.same d.order

def combine (op : Operator) (c d : AnyIdealResidue) : Traced Note AnyIdealResidue :=
  let D := c.polynomial.domain
  match c.inDomain? D, d.inDomain? D with
  | some c, some d => do return ofDomain (← (op.onIdealResidues c d).ofBasis)
  | _, _ =>
    if c.sameIdeal d then do
      c.classOf (← Traced.lift (AnyPolynomial.combine op c.polynomial d.polynomial))
    else .fail (.invalid .mixedIdeals)

def neg (c : AnyIdealResidue) : Traced Note AnyIdealResidue :=
  let D := c.polynomial.domain
  match c.inDomain? D with
  | some c => do return ofDomain (← c.neg.ofBasis)
  | none => c.classOf ⟨D, -c.polynomial.polynomial⟩

def same (c d : AnyIdealResidue) : Bool :=
  c.sameIdeal d && c.polynomial.same d.polynomial

end AnyIdealResidue

end PolyIdeal
