import PolyIdeal.Value.Note
import PolyIdeal.Value.Operators

/-!
# Euclidean algorithms on values

The arguments are converted into a ring first; an inverse modulo an element is reduced by that
element as it was given.
-/

namespace PolyIdeal.Ring

def extendedGcd (A : Ring) (a b : Value) : Except Failure (List Value) := do
  let c ← Euclidean.extendedGcd (← A.convert a) (← A.convert b)
  return [c.r, c.s, c.value].map Value.ofRingElement

def gcd (A : Ring) (a b : Value) : Except Failure Value := do
  return .ofRingElement (← Euclidean.gcd (← A.convert a) (← A.convert b))

def lcm (A : Ring) (a b : Value) : Except Failure Value := do
  return .ofRingElement (← Euclidean.lcm (← A.convert a) (← A.convert b))

/-- A greatest common divisor behind its cofactors. The elements are counted before they are
converted. -/
def gcdAll (A : Ring) (vs : List Value) : Except Failure (List Value) := do
  if 2 < vs.length then throw (.unsupported (.gcdOfMany vs.length))
  return (← Euclidean.gcdAll (← vs.mapM A.convert)).map Value.ofRingElement

/-- The remainder by a modulus that need not be an element. -/
def remainderBy : (A : Ring) → A.Elem → Value → Except Failure Value
  | domain .integers, (c : Int), v =>
    match v with
    | .number (.integer m) => (Euclidean.rem c m).map fun (r : Int) => .number (.integer r)
    | .number (.residue n r) =>
      (Euclidean.rem c r.val).map fun (s : Int) => .number (.residue n (Residue.ofInt n s))
    | _ => .error .noOperator
  | domain D, _, _ => .ok (.ofElement (0 : D.Elem))
  | polynomials _, p, v => Value.modulo .noSuchOperation (.ofPolynomial (.univariate p)) v

def inverseMod (A : Ring) (a modulus : Value) : Except Failure Value := do
  let c ← Euclidean.unitCofactor (← A.convert a) (← A.convert modulus) a.shown modulus.shown
  A.remainderBy c modulus

def solveCongruences (A : Ring) (xs ms : List Value) : Traced Note AnyResidueClass := do
  let xs ← Traced.lift (xs.mapM A.convert)
  let ms ← Traced.lift (ms.mapM A.convert)
  return ⟨A, ← (chineseRemainder xs ms).ofCongruences⟩

/-- The operations of a ring by name. -/
inductive Call
  | convert (a : Value)
  | isZero (a : Value)
  | combine (op : Operator) (a b : Value)
  | quo (a b : Value)
  | rem (a b : Value)
  | exquo (a b : Value)

/-- The answer of a ring: an element, or whether an element is zero. -/
inductive Answer
  | element (v : Value)
  | truth (b : Bool)

/-- Applies an operation of a coefficient domain to the counterparts of the arguments. -/
def callDomain (D : Domain) : Call → Except Failure Answer
  | .convert a => do return .element (.ofElement (← (domain D).convert a : D.Elem))
  | .isZero a => do return .truth (decide ((← (domain D).convert a : D.Elem) = 0))
  | .combine op a b => do
    let a : D.Elem ← (domain D).convert a
    let b : D.Elem ← (domain D).convert b
    return .element (.ofElement (op.apply a b))
  | .quo a b => binary Euclidean.quo a b
  | .rem a b => binary Euclidean.rem a b
  | .exquo a b => binary Euclidean.exquo a b
where
  binary (f : D.Elem → D.Elem → Except Failure D.Elem) (a b : Value) : Except Failure Answer := do
    return .element (.ofElement (← f (← (domain D).convert a) (← (domain D).convert b)))

/-- Applies an operation of a polynomial ring to the arguments as they are. -/
def callPolynomials (K : Domain) : Call → Traced Note Answer
  | .convert a => .lift do return .element (.ofRingElement (← (polynomials K).convert a))
  | .isZero (.polynomial p) => pure (.truth p.isZero)
  | .isZero _ => .fail .noSuchOperation
  | .combine op a b => do return .element (← Value.combine op a b)
  | .quo a b => .lift do return .element (← Value.quotient .noSuchOperation a b)
  | .rem a b => .lift do return .element (← Value.modulo .noSuchOperation a b)
  | .exquo a b => .lift do
    let (q, r) ← Value.divMod .noSuchOperation a b
    if r.truth then throw .inexact
    return .element q

def call : Ring → Call → Traced Note Answer
  | domain D, c => .lift (callDomain D c)
  | polynomials K, c => callPolynomials K c

end PolyIdeal.Ring
