import PolyIdeal.Value.Basic

/-!
# Ring elements from values

What element of a Euclidean ring a value stands for. In a polynomial ring a list is taken as
coefficients and anything else but a univariate polynomial as a constant.
-/

namespace PolyIdeal

namespace Ring

def changeDomain {D : Domain} (K : Domain) (p : Univariate D.Elem) :
    Except Failure (Univariate K.Elem) := do
  match ← (Polynomial.univariate p).setDomain (S := K.Elem) with
  | .univariate p => return p
  | .multinomial _ => throw .noConversion

def convert : (A : Ring) → Value → Except Failure A.Elem
  | domain D, v => Coefficient.ofOperand? (R := D.Elem) v.number?
  | polynomials K, v =>
    match v with
    | .polynomial ⟨D, .univariate p⟩ =>
      if h : D = K then .ok (h ▸ p) else changeDomain K p
    | .list vs => Univariate.fromCoefficients (R := K.Elem) (vs.map Value.number?)
    | v => Univariate.fromCoefficients (R := K.Elem) [v.number?]

end Ring

namespace AnyResidueClass

def create (A : Ring) (value modulus : Value) : Except Failure AnyResidueClass := do
  let modulus ← A.convert modulus
  if Euclidean.isZero modulus then throw (.arithmetic .zeroModulus)
  return ⟨A, ← ResidueClass.of (← A.convert value) modulus⟩

/-- A value as an operand of a class: a class with the same modulus, or an element of the ring. -/
def operand (c : AnyResidueClass) : Value → Except Failure (ResidueClass c.ring.Elem)
  | .residueClass d =>
    let mixed := Failure.arithmetic (.mixedModuli (Euclidean.text c.residue.modulus)
      (Euclidean.text d.residue.modulus))
    if h : d.ring = c.ring then
      let d : ResidueClass c.ring.Elem := h ▸ d.residue
      if Euclidean.same c.residue.modulus d.modulus then .ok d else .error mixed
    else .error mixed
  | v => do ResidueClass.of (← c.ring.convert v) c.residue.modulus

end AnyResidueClass

def Operator.onResidueClasses {E : Type} [Euclidean E] :
    Operator → ResidueClass E → ResidueClass E → Except Failure (ResidueClass E)
  | add => ResidueClass.add
  | sub => ResidueClass.sub
  | mul => ResidueClass.mul

namespace AnyResidueClass

def combine (op : Operator) (c : AnyResidueClass) (v : Value) : Except Failure AnyResidueClass := do
  return ⟨c.ring, ← op.onResidueClasses c.residue (← c.operand v)⟩

/-- The same with the class as the right operand; only a difference depends on the sides. -/
def combineLeft (op : Operator) (v : Value) (c : AnyResidueClass) :
    Except Failure AnyResidueClass := do
  match op with
  | .sub => return ⟨c.ring, ← (← c.operand v).sub c.residue⟩
  | op => c.combine op v

def neg (c : AnyResidueClass) : Except Failure AnyResidueClass := do
  return ⟨c.ring, ← c.residue.neg⟩

def inverse (c : AnyResidueClass) : Except Failure AnyResidueClass := do
  return ⟨c.ring, ← c.residue.inverse⟩

def same (c d : AnyResidueClass) : Bool :=
  if h : d.ring = c.ring then c.residue.same (h ▸ d.residue) else false

end AnyResidueClass

end PolyIdeal
