import PolyIdeal.Builder.Basic

/-!
# Sparse polynomial rings

A ring with generators `x0, x1, ...`, whose elements are finite maps from monomials to nonzero
coefficients. The terms of an element may be listed in any order. The ring itself lists them from the
highest in its monomial order, which has to rank them.
-/

namespace PolyIdeal

structure SparseRing where
  domain : Domain
  generators : Nat
  order : Order

namespace SparseRing

def text (ring : SparseRing) : String :=
  "Polynomial ring in " ++
    ", ".intercalate ((List.range ring.generators).map fun i => "x" ++ Nat.repr i) ++ " over " ++
    ring.domain.text ++ " with " ++ ring.order.shortName ++ " order"

variable {R : Type} [Zero R] [DecidableEq R] [Add R] [Sub R] [Mul R] [Neg R] [Coefficient R]

omit [Zero R] [DecidableEq R] [Add R] [Sub R] [Mul R] [Neg R] [Coefficient R] in
/-- The terms of an element as the ring lists them, from the highest monomial to the lowest. -/
def listed (ring : SparseRing) (terms : List (List Int × R)) :
    Except Failure (List (List Int × R)) := do
  terms.forM fun term => ring.order.check term.1
  return terms.mergeSort fun a b => !decide (ring.order.rank a.1 < ring.order.rank b.1)

/-- The polynomial of a ring element, whose terms are set in the order in which they are listed. -/
def toPolynomial (ring : SparseRing) (terms : List (List Int × R)) :
    Except Failure (Polynomial R) := do
  let builder ← Builder.create ring.generators
  let builder ← terms.foldlM (fun b (m, c) => return b.assign (← b.monomial? m) c) builder
  builder.build

/-- The terms of the ring element with the given coefficients, which may come from another domain.
-/
def ofTerms (ring : SparseRing) (nvars : Nat) (terms : List (Monomial × Scalar)) :
    Except Failure (List (List Int × R)) := do
  if nvars ≠ ring.generators then
    throw (.invalid (.ringArity ring.text ring.generators nvars))
  let converted ← terms.mapM fun (m, c) =>
    return (m.toInts, ← Coefficient.ofOperand? (R := R) (some c))
  return converted.filter fun term => term.2 ≠ 0

end SparseRing

end PolyIdeal
