import PolyIdeal.Value.IdealResidue
import PolyIdeal.Value.RingElement

/-!
# Operators on values

A polynomial takes the operands that its domain has a counterpart for, a residue class those of its
ring, and a residue modulo an ideal those of its representative. The other operand may stand on
either side.
-/

namespace PolyIdeal

namespace AnyPolynomial

def combineScalar (op : Operator) (p : AnyPolynomial) (s : Scalar) :
    Except Failure AnyPolynomial :=
  match Coefficient.ofScalar? (R := p.domain.Elem) s with
  | none => .error .noOperator
  | some c => do
    match op with
    | .mul => return ⟨p.domain, p.polynomial.scale c⟩
    | op => return ⟨p.domain, ← op.onPolynomials p.polynomial (p.polynomial.constantLike c)⟩

def combineScalarLeft (op : Operator) (s : Scalar) (p : AnyPolynomial) :
    Except Failure AnyPolynomial :=
  match op with
  | .sub =>
    match Coefficient.ofScalar? (R := p.domain.Elem) s with
    | none => .error .noOperator
    | some c => do return ⟨p.domain, ← (p.polynomial.constantLike c).sub p.polynomial⟩
  | op => p.combineScalar op s

end AnyPolynomial

namespace Value

/-- Applies an operator, where neither operand is a residue modulo an ideal. -/
def combinePlain (op : Operator) : Value → Value → Except Failure Value
  | residueClass c, v => (c.combine op v).map residueClass
  | v, residueClass c => (AnyResidueClass.combineLeft op v c).map residueClass
  | polynomial p, polynomial q => (AnyPolynomial.combine op p q).map polynomial
  | polynomial p, number s => (p.combineScalar op s).map polynomial
  | number s, polynomial p => (AnyPolynomial.combineScalarLeft op s p).map polynomial
  | number s, number t => (Scalar.combine (fun n => (BinaryReal.round n).value) op s t).map number
  | _, _ => .error .noOperator

/-- The class of what an operator gave for the representative of `c`. -/
def classOf (c : AnyIdealResidue) : Except Failure Value → Traced Note Value
  | .ok (polynomial p) => do return idealResidue (← c.classOf p)
  | .ok _ => .fail .noSuchOperation
  | .error e => .fail e

def combine (op : Operator) : Value → Value → Traced Note Value
  | residueClass c, v => .lift (combinePlain op (residueClass c) v)
  | idealResidue c, idealResidue d => do return idealResidue (← AnyIdealResidue.combine op c d)
  | idealResidue c, v => classOf c (combinePlain op (polynomial c.polynomial) v)
  | v, idealResidue c => classOf c <|
      match op with
      | .sub => combinePlain .sub v (polynomial c.polynomial)
      | op => combinePlain op (polynomial c.polynomial) v
  | v, w => .lift (combinePlain op v w)

def neg : Value → Traced Note Value
  | number s => pure (number s.neg)
  | polynomial p => pure (ofPolynomial (-p.polynomial))
  | residueClass c => .lift (c.neg.map residueClass)
  | idealResidue c => do return idealResidue (← c.neg)
  | _ => .fail .noOperator

/-- The value itself, if it has a sign. -/
def pos : Value → Except Failure Value
  | number s => .ok (number s)
  | polynomial p => .ok (polynomial p)
  | _ => .error .noOperator

/-- A power of a polynomial or a number. -/
def pow : Value → Value → Except Failure Value
  | polynomial p, number (.integer k) =>
    if 0 ≤ k then .ok (ofPolynomial (p.polynomial.power k.toNat))
    else .error (.invalid (.power (Text.integer k)))
  | polynomial _, exponent => .error (.invalid (.power exponent.describe))
  | number s, number (.integer k) =>
    if 0 ≤ k then .ok (number (s.pow k.toNat)) else .error .noOperator
  | _, _ => .error .noOperator

/-- Whether a value counts as true. -/
def truth : Value → Bool
  | nothing => false
  | text s => !s.isEmpty
  | number s => !s.isZero
  | list vs => !vs.isEmpty
  | polynomial p => !p.isZero
  | _ => true

def length : Value → Except Failure Nat
  | text s => .ok s.length
  | list vs => .ok vs.length
  | polynomial p => .ok p.terms.length
  | _ => .error .noOperator

/-- Two univariate polynomials over one domain. -/
structure UnivariatePair where
  domain : Domain
  left : Univariate domain.Elem
  right : Univariate domain.Elem

/-- The right operand over the domain of a univariate polynomial on the left. -/
def univariateOperand {D : Domain} (f : Univariate D.Elem) (v : Value) :
    Except Failure (Univariate D.Elem) := do
  let g ← match v with
    | polynomial q => AnyPolynomial.operand ⟨D, .univariate f⟩ q
    | v =>
      match v.number?.bind (Coefficient.ofScalar? (R := D.Elem)) with
      | some c => pure ((Polynomial.univariate f).constantLike c)
      | none => throw .noSuchOperation
  match (Polynomial.univariate f).convertLike g with
  | .univariate g => return g
  | .multinomial _ => throw .noSuchOperation

/-- The operands of an operation that only univariate polynomials have; others meet a refusal. -/
def univariatePair (refusal : Failure) : Value → Value → Except Failure UnivariatePair
  | polynomial ⟨D, .univariate f⟩, v => do return ⟨D, f, ← univariateOperand f v⟩
  | _, _ => .error refusal

def divMod (refusal : Failure) (a b : Value) : Except Failure (Value × Value) := do
  let operands ← univariatePair refusal a b
  let (q, r) ← operands.left.divMod operands.right
  return (ofPolynomial (.univariate q), ofPolynomial (.univariate r))

def quotient (refusal : Failure) (a b : Value) : Except Failure Value :=
  (divMod refusal a b).map Prod.fst

def modulo (refusal : Failure) (a b : Value) : Except Failure Value :=
  (divMod refusal a b).map Prod.snd

/-- The quotient of a division without remainder. -/
def exactQuotient (a b : Value) : Except Failure Value := do
  let operands ← univariatePair .noSuchOperation a b
  return ofPolynomial (.univariate (← operands.left.exactQuotient operands.right))

/-- The product by a method. An operand without a counterpart is met only by a known method, and not
if the left operand is zero. -/
def multiply (a b : Value) (method : String) : Except Failure Value :=
  match a with
  | polynomial ⟨D, .univariate f⟩ =>
    match univariateOperand f b with
    | .ok g => do
      let method ← Univariate.Method.named? method
      return ofPolynomial (D := D) (.univariate (← f.multiply method g))
    | .error .noSuchOperation => do
      let _ ← Univariate.Method.named? method
      if f.isZero then return a else throw .noSuchOperation
    | .error e => .error e
  | _ => .error .noSuchOperation

end Value

end PolyIdeal
