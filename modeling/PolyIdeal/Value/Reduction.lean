import PolyIdeal.Basis.Groebner
import PolyIdeal.Value.AnyPolynomial
import PolyIdeal.Value.Note

/-!
# Reduction over several domains

The elements of a basis may be over different domains. One over another domain than the polynomial
to reduce never cancels anything: it is passed over if its leading coefficient does not divide,
and a failure otherwise.
-/

namespace PolyIdeal

namespace Scalar

/-- The quotient of a coefficient by one of another kind, or nothing if the division is not exact.
-/
def foreignQuotient : Scalar → Scalar → Except Failure (Option Scalar)
  | integer c, real x =>
    if ((c : Rat) / x.toRat).den = 1 then .error .noOperator else .ok none
  | integer c, residue n r =>
    if Residue.ofInt n (Int.fmod c r.val) = 0 then .error .noOperator else .ok none
  | rational q, integer k => .ok (some (.rational (q / (k : Rat))))
  | real x, integer k => .ok (some (.real (BinaryReal.ofRat (x.toRat / (k : Rat))).value))
  | residue n r, b =>
    match b.integer? with
    | some k => .ok ((Residue.divide? r (Residue.ofInt n k)).map (.residue n))
    | none => .error .noOperator
  | _, _ => .error .noOperator

/-- What is in the way of cancelling a coefficient over `D` by a leading coefficient over `D'`. -/
def obstacle? (D D' : Domain) (c lc : Scalar) : Option Failure :=
  match foreignQuotient c lc with
  | .error e => some e
  | .ok none => none
  | .ok (some q) =>
    match Coefficient.ofScalar? (R := D'.Elem) q with
    | none => some .noConversion
    | some _ => some (.invalid (.differentDomains D.text D'.text))

end Scalar

/-- A reducer for polynomials over any domain. -/
structure AnyReducer where
  order : Order
  tolerance : Option Tolerance
  basis : List AnyPolynomial

namespace AnyReducer

def divisor (order : Order) (D : Domain) (g : AnyPolynomial) : Except Failure (Divisor D.Elem) :=
  match g.inDomain? D with
  | some g => Reducer.divisor order g
  | none =>
    if g.isZero then .error (.invalid .zeroDivisor)
    else do
      let (lm, lc) ← g.polynomial.leadingTerm order
      return .foreign lm fun c =>
        Scalar.obstacle? D g.domain (Coefficient.toScalar c) (Coefficient.toScalar lc)

def forDomain (D : Domain) (r : AnyReducer) : Except Failure (Reducer D.Elem) := do
  let divisors ← r.basis.mapM (divisor r.order D)
  let nvars ← commonArity (r.basis.map AnyPolynomial.nvars)
  return { order := r.order, tolerance := r.tolerance, nvars, divisors }

/-- A reducer modulo a basis. The basis is refused or not regardless of a domain. -/
def create (order : Order) (tolerance : Option Tolerance) (basis : List AnyPolynomial) :
    Except Failure AnyReducer := do
  let r : AnyReducer := { order, tolerance, basis }
  let _ ← r.forDomain .integers
  return r

def step? (r : AnyReducer) (f : AnyPolynomial) : Traced Note (Option AnyPolynomial) := do
  let reducer ← Traced.lift (r.forDomain f.domain)
  let h ← (reducer.step? f.polynomial).ofBasis
  return h.map (⟨f.domain, ·⟩)

def normalForm (r : AnyReducer) (f : AnyPolynomial) : Traced Note AnyPolynomial := do
  let reducer ← Traced.lift (r.forDomain f.domain)
  return ⟨f.domain, ← (reducer.normalForm f.polynomial).ofBasis⟩

def chain (r : AnyReducer) (f : AnyPolynomial) (limit : Nat) :
    Traced Note (List AnyPolynomial) := do
  let reducer ← Traced.lift (r.forDomain f.domain)
  return (← (reducer.chain f.polynomial limit).ofBasis).map (⟨f.domain, ·⟩)

def annihilates (r : AnyReducer) (f : AnyPolynomial) : Traced Note Bool := do
  let reducer ← Traced.lift (r.forDomain f.domain)
  (reducer.annihilates f.polynomial).ofBasis

end AnyReducer

namespace AnyPolynomial

def chop (tolerance : Option Tolerance) (p : AnyPolynomial) : Except Failure AnyPolynomial :=
  (p.polynomial.chop tolerance).map (⟨p.domain, ·⟩)

def reduce (f : AnyPolynomial) (basis : List AnyPolynomial) (choice : OrderChoice)
    (tolerance : Option Tolerance) : Traced Note AnyPolynomial := do
  let order ← Traced.lift choice.resolve
  match allInDomain? f.domain basis with
  | some basis =>
    return ⟨f.domain, ← (PolyIdeal.reduce f.polynomial basis order tolerance).ofBasis⟩
  | none =>
    let r ← Traced.lift (AnyReducer.create order tolerance basis)
    r.normalForm f

end AnyPolynomial

end PolyIdeal
