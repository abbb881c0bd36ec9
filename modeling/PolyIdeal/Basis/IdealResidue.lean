import PolyIdeal.Basis.Groebner

/-!
# Residues modulo an ideal

The class of a polynomial modulo the ideal of a Groebner basis, by its normal form.
-/

namespace PolyIdeal

structure IdealResidue (R : Type) [Zero R] where
  polynomial : Polynomial R
  basis : List (Polynomial R)
  order : OrderChoice
  tolerance : Option Tolerance

namespace IdealResidue

variable {R : Type} [Zero R] [One R] [DecidableEq R] [Add R] [Sub R] [Mul R] [Neg R] [Coefficient R]

def of (f : Polynomial R) (basis : List (Polynomial R)) (order : OrderChoice)
    (tolerance : Option Tolerance) : Traced (Event R) (IdealResidue R) := do
  let o ← Traced.lift order.resolve
  let r ← reduce f basis o tolerance
  return ⟨r, basis, order, tolerance⟩

def classOf (c : IdealResidue R) (f : Polynomial R) : Traced (Event R) (IdealResidue R) :=
  of f c.basis c.order c.tolerance

/-- Refuses classes modulo ideals that were given differently. -/
def check (c d : IdealResidue R) : Except Failure Unit :=
  if sameBasis c.basis d.basis && c.order.same d.order then .ok ()
  else .error (.invalid .mixedIdeals)

def add (c d : IdealResidue R) : Traced (Event R) (IdealResidue R) := do
  Traced.lift (c.check d)
  c.classOf (← Traced.lift (c.polynomial.add d.polynomial))

def sub (c d : IdealResidue R) : Traced (Event R) (IdealResidue R) := do
  Traced.lift (c.check d)
  c.classOf (← Traced.lift (c.polynomial.sub d.polynomial))

def mul (c d : IdealResidue R) : Traced (Event R) (IdealResidue R) := do
  Traced.lift (c.check d)
  c.classOf (← Traced.lift (c.polynomial.mul d.polynomial))

def neg (c : IdealResidue R) : Traced (Event R) (IdealResidue R) :=
  c.classOf (-c.polynomial)

def same (c d : IdealResidue R) : Bool :=
  sameBasis c.basis d.basis && c.order.same d.order && c.polynomial.agrees d.polynomial

def text (c : IdealResidue R) : String :=
  c.polynomial.text ++ " mod <" ++ ", ".intercalate (c.basis.map Polynomial.text) ++ ">"

end IdealResidue

end PolyIdeal
