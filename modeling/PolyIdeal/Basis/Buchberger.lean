import PolyIdeal.Basis.Completion
import PolyIdeal.Basis.SPolynomial
import PolyIdeal.Basis.Settlement
import PolyIdeal.Reduction.Reducer

/-!
# Buchberger's algorithm

Generators are completed by the remainders of their s-polynomials, and a basis is autoreduced
until no element can be reduced by the others.
-/

namespace PolyIdeal

structure Config where
  /-- The bound within which a coefficient counts as zero; without one only zero does. -/
  tolerance : Option Tolerance := none
  /-- Whether pairs with coprime leading monomials are passed over. -/
  productCriterion : Bool := false
  /-- Whether the basis gets leading coefficients one over a field. -/
  monic : Bool := true
  /-- Whether the result is verified. -/
  check : Bool := false

namespace Buchberger

open Reducer (Element)

variable {R : Type} [Zero R] [One R] [DecidableEq R] [Add R] [Sub R] [Mul R] [Neg R] [Coefficient R]

def coprime (f g : Element R) : Bool :=
  match f.divisor, g.divisor with
  | .ok d, .ok e => Monomial.coprime d.leadingMonomial e.leadingMonomial
  | _, _ => false

/-- The remainder of the s-polynomial of two elements, unless it is zero or passed over. -/
def join (order : Order) (config : Config) (basis : List (Element R)) (f g : Element R) :
    Traced (Event R) (Option (Element R)) :=
  if config.productCriterion && coprime f g then pure none
  else do
    let reducer ← Traced.lift (Reducer.ofElements order config.tolerance basis)
    let s ← Traced.lift (sPolynomial f.polynomial g.polynomial order config.tolerance)
    let r ← reducer.normalForm s
    let r ← Traced.lift (r.chop config.tolerance)
    if r.isZero then return none
    else
      Traced.note (.remainder f.polynomial g.polynomial r) (pure (some (Reducer.element order r)))

end Buchberger

variable {R : Type} [Zero R] [One R] [DecidableEq R] [Add R] [Sub R] [Mul R] [Neg R] [Coefficient R]

/-- A Groebner basis that starts with the generators, which must not be zero. -/
def buchberger (generators : List (Polynomial R)) (order : Order) (config : Config) :
    Traced (Event R) (List (Polynomial R)) := do
  let _ ← Traced.lift (generators.mapM (Polynomial.leadingMonomial order))
  let basis := generators.map (Reducer.element order)
  let _ ← Traced.lift (Reducer.ofElements order config.tolerance basis)
  let completed ← Completion.complete Reducer.Element.monomial?
    (fun basis _ f g => Buchberger.join order config basis f g) basis (criticalPairs basis.length)
  return completed.map Reducer.Element.polynomial

/-- The ranks of the monomials of an element from the highest. -/
def Reducer.Element.support (order : Order) (e : Reducer.Element R) : List (List Nat) :=
  (order.descending e.polynomial.monomials).map order.rank

/-- What becomes of `g` when it is reduced modulo the others. -/
def reduceByOthers (order : Order) (tolerance : Option Tolerance)
    (others : List (Reducer.Element R)) (g : Reducer.Element R) :
    Traced (Event R) (Change (Reducer.Element R)) := do
  let reducer ← Traced.lift (Reducer.ofElements order tolerance others)
  let r ← reducer.normalForm g.polynomial
  let r ← Traced.lift (r.chop tolerance)
  if r.agrees g.polynomial then return .kept
  else if r.isZero then Traced.note (.dropped g.polynomial) (pure .dropped)
  else Traced.note (.replaced g.polynomial r) (pure (.replaced (Reducer.element order r)))

/-- Reduces every element modulo the others until no element changes. -/
def autoreduce (basis : List (Polynomial R)) (order : Order) (tolerance : Option Tolerance) :
    Traced (Event R) (List (Polynomial R)) := do
  let settled ← Settlement.settle (Reducer.Element.support order) (reduceByOthers order tolerance)
    (basis.map (Reducer.element order))
  return settled.map Reducer.Element.polynomial

end PolyIdeal
