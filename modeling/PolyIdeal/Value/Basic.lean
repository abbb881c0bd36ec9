import PolyIdeal.Basis.IdealResidue
import PolyIdeal.Euclid.AnyRing
import PolyIdeal.Value.AnyPolynomial

/-!
# Values

What operators are applied to: numbers, polynomials and residue classes, but also lists, texts and
other things that operators refuse.
-/

namespace PolyIdeal

/-- A residue class modulo an element of some ring. -/
structure AnyResidueClass where
  ring : Ring
  residue : ResidueClass ring.Elem

/-- A residue modulo an ideal, where the basis may be over several domains. -/
structure AnyIdealResidue where
  polynomial : AnyPolynomial
  basis : List AnyPolynomial
  order : OrderChoice
  tolerance : Option Tolerance

inductive Value
  | nothing
  | text (s : String)
  | number (s : Scalar)
  | list (vs : List Value)
  | polynomial (p : AnyPolynomial)
  | residueClass (c : AnyResidueClass)
  | idealResidue (c : AnyIdealResidue)
  /-- A thing without operators, known by its handle. -/
  | object (handle : Nat)

namespace AnyIdealResidue

def text (c : AnyIdealResidue) : String :=
  c.polynomial.text ++ " mod <" ++ ", ".intercalate (c.basis.map AnyPolynomial.text) ++ ">"

end AnyIdealResidue

namespace Value

def number? : Value → Option Scalar
  | number s => some s
  | _ => none

def ofPolynomial {D : Domain} (p : Polynomial D.Elem) : Value :=
  polynomial ⟨D, p⟩

def ofElement {D : Domain} (c : D.Elem) : Value :=
  number (Coefficient.toScalar c)

def ofRingElement : {A : Ring} → A.Elem → Value
  | .domain D, c => ofElement (D := D) c
  | .polynomials _, p => ofPolynomial (.univariate p)

mutual

def describe : Value → String
  | nothing => "None"
  | text s => Text.quoted s
  | number s => s.describe
  | list vs => "[" ++ describeAll vs ++ "]"
  | polynomial p => p.describe
  | residueClass c => c.residue.text
  | idealResidue c => c.text
  | object _ => "object"

def describeAll : List Value → String
  | [] => ""
  | [v] => v.describe
  | v :: vs => v.describe ++ ", " ++ describeAll vs

end

def shown : Value → String
  | text s => s
  | number s => s.text
  | polynomial p => p.text
  | v => v.describe

/-- Integers in a list. -/
def integers? : List Value → Option (List Int)
  | [] => some []
  | number (.integer n) :: vs => (integers? vs).map (n :: ·)
  | _ => none

/-- A bound within which coefficients count as zero, unless there is none. -/
def tolerance? : Value → Option Tolerance
  | nothing => none
  | number s => some (.number s)
  | _ => some .incomparable

end Value

namespace AnyPolynomial

/-- The coefficient at an index: an exponent for one variable, or the exponents of several. -/
def item (p : AnyPolynomial) (index : Value) : Except Failure Scalar :=
  match p.polynomial, index with
  | .univariate f, .number (.integer i) =>
    if i < 0 then .error (.invalid (.negativeExponent i))
    else .ok (Coefficient.toScalar (f.coefficient i.toNat))
  | .multinomial f, .list vs =>
    match Value.integers? vs with
    | some exponents =>
      ((Polynomial.multinomial f).coefficientAt exponents).map Coefficient.toScalar
    | none => .error .noOperator
  | _, _ => .error .noOperator

end AnyPolynomial

end PolyIdeal
