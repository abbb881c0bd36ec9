import PolyIdeal.Polynomial.Leading

/-!
# The order that a monomial order induces on polynomials

The monomials of two polynomials are compared one by one from the highest. Zero is the minimum, and
polynomials are incomparable if the monomials of one run out before they differ.
-/

namespace PolyIdeal.Order

/-- The first difference of two lists of monomials, where one may run out. -/
def compareLists (order : Order) : List Monomial → List Monomial → Except Failure Ordering
  | m₁ :: ms₁, m₂ :: ms₂ => do
    Monomial.checkArity m₁.toInts m₂.toInts
    match order.compare m₁ m₂ with
    | .eq => order.compareLists ms₁ ms₂
    | c => return c
  | _, _ => .ok .eq

/-- Compares polynomials by their monomials in descending order; `text₁` and `text₂` name them in a
failure. -/
def compareDescending (order : Order) (ms₁ ms₂ : List Monomial) (text₁ text₂ : String) :
    Except Failure Ordering :=
  match ms₁, ms₂ with
  | [], [] => .ok .eq
  | [], _ => .ok .lt
  | _, [] => .ok .gt
  | _, _ => do
    match ← order.compareLists ms₁ ms₂ with
    | .eq =>
      if ms₁.length = ms₂.length then return .eq
      else throw (.incomparable text₁ text₂ (ms₁.map Monomial.toInts) (ms₂.map Monomial.toInts))
    | c => return c

def descending? (order : Order) (ms : List Monomial) : Except Failure (List Monomial) := do
  ms.forM fun m => order.check m.toInts
  return order.descending ms

variable {R S : Type} [Zero R] [One R] [DecidableEq R] [Add R] [Sub R] [Mul R] [Neg R]
  [Coefficient R] [Zero S] [One S] [DecidableEq S] [Add S] [Sub S] [Mul S] [Neg S] [Coefficient S]

/-- Compares two polynomials, which may have different coefficients. -/
def comparePolynomials (order : Order) (p : Polynomial R) (q : Polynomial S) :
    Except Failure Ordering := do
  let ms₁ ← order.descending? p.monomials
  let ms₂ ← order.descending? q.monomials
  order.compareDescending ms₁ ms₂ p.text q.text

end PolyIdeal.Order
