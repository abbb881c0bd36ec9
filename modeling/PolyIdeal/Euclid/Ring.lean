import PolyIdeal.Univariate.Division
import PolyIdeal.Univariate.Product

/-!
# Euclidean rings

Rings with division and remainder: the integers, univariate polynomials over a field, and, with
remainders that are always zero, the fields themselves.
-/

namespace PolyIdeal

class Euclidean (E : Type) extends Zero E, One E, Add E, Sub E, Mul E where
  isZero : E → Bool
  /-- The quotient of division with remainder. -/
  quo : E → E → Except Failure E
  rem : E → E → Except Failure E
  /-- The quotient of a division that has to come out even. -/
  exquo : E → E → Except Failure E
  /-- A number that remainders lower. -/
  size : E → Nat
  same : E → E → Bool
  text : E → String
  ringText : String

namespace Euclidean

instance : Euclidean Int where
  zero := 0
  one := 1
  isZero a := a == 0
  quo a b := if b = 0 then .error .zeroDivision else .ok (Int.fdiv a b)
  rem a b := if b = 0 then .error .zeroDivision else .ok (Int.fmod a b)
  exquo := Coefficient.exquo
  size := Int.natAbs
  same a b := a == b
  text := Coefficient.text
  ringText := Domain.integers.text

/-- A domain in which every remainder counts as zero. -/
@[reducible] def ofQuotients (D : Domain) : Euclidean D.Elem where
  isZero a := decide (a = 0)
  quo := Coefficient.exquo
  rem _ _ := .ok 0
  exquo := Coefficient.exquo
  size a := if a = 0 then 0 else 1
  same a b := decide (a = b)
  text := Coefficient.text
  ringText := D.text

instance (D : Domain) : Euclidean D.Elem :=
  match D with
  | .integers => inferInstanceAs (Euclidean Int)
  | .rationals => ofQuotients .rationals
  | .reals => ofQuotients .reals
  | .residues n => ofQuotients (.residues n)

section Univariate

variable {K : Type} [Zero K] [One K] [DecidableEq K] [Add K] [Sub K] [Mul K] [Neg K] [Coefficient K]

/-- Division in `K[X]` where a remainder is a failure. -/
def exactDivision (f g : Univariate K) : Except Failure (Univariate K) := do
  let (q, r) ← f.divMod g
  if r.isZero then return q else throw .inexact

instance : One (Univariate K) := ⟨Univariate.constant 1⟩

instance : Euclidean (Univariate K) where
  isZero := Univariate.isZero
  quo := Univariate.quotient
  rem := Univariate.modulo
  exquo := exactDivision
  size := Univariate.size
  same f g := decide (f = g)
  text := Univariate.text
  ringText := (Coefficient.domain K).text ++ "[X]"

end Univariate

variable {E : Type} [Euclidean E]

/-- The quotient, where an uneven division is reported by what was divided. -/
def exactQuotient (a b : E) : Except Failure E :=
  match exquo a b with
  | .ok c => .ok c
  | .error e =>
    if e = .inexact ∨ e = .notInvertible ∨ e = .zeroDivision then
      .error (.arithmetic (.indivisible (text a) (text b) (ringText E)))
    else .error e

end Euclidean

end PolyIdeal
