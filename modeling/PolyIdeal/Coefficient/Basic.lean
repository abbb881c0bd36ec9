import PolyIdeal.Coefficient.Decimal
import PolyIdeal.Coefficient.Domain
import PolyIdeal.Failure

/-!
# Coefficients

What the algorithms ask of a coefficient type beside its ring operations: exact division, comparison
of magnitudes with a tolerance, conversion of numbers, and a written form.
-/

namespace PolyIdeal

class Coefficient (R : Type) where
  /-- The domain whose elements these are. -/
  domain : Domain
  /-- The `c` with `c * b = a`, if `b` divides `a` and the division is possible. -/
  exquo? : R → R → Option R
  /-- Why an exact division fails. -/
  divisionFailure : R → Failure
  /-- Whether the magnitude is at most a tolerance. -/
  within : Tolerance → R → Except Failure Bool
  /-- The element that stands for a number. -/
  ofScalar? : Scalar → Option R
  toScalar : R → Scalar
  text : R → String

namespace Coefficient

/-- A number is comparable in magnitude with integers and with numbers of its own kind. -/
def rationalWithin (tolerance : Tolerance) (magnitude : Rat) : Except Failure Bool :=
  match tolerance with
  | .number (.integer n) => .ok (magnitude ≤ n)
  | .number (.rational q) => .ok (magnitude ≤ q)
  | _ => .error .noOperator

def realWithin (tolerance : Tolerance) (magnitude : Rat) : Except Failure Bool :=
  match tolerance with
  | .number (.integer n) => .ok (magnitude ≤ n)
  | .number (.real x) => .ok (magnitude ≤ x.toRat)
  | _ => .error .noOperator

def integerWithin (tolerance : Tolerance) (magnitude : Nat) : Except Failure Bool :=
  match tolerance with
  | .number (.real _) => realWithin tolerance magnitude
  | _ => rationalWithin tolerance magnitude

instance : Coefficient Int where
  domain := .integers
  exquo? a b := if b = 0 then none else if a % b = 0 then some (a / b) else none
  divisionFailure b := if b = 0 then .zeroDivision else .inexact
  within tolerance a := integerWithin tolerance a.natAbs
  ofScalar?
    | .integer n => some n
    | .rational q => if q.den = 1 then some q.num else none
    | .residue _ r => some r.centered
    | .real _ => none
  toScalar := .integer
  text := Text.integer

def rationalText (q : Rat) : String :=
  if q.den = 1 then Text.integer q.num else Text.integer q.num ++ "/" ++ Nat.repr q.den

instance : Coefficient Rat where
  domain := .rationals
  exquo? a b := if b = 0 then none else some (a / b)
  divisionFailure _ := .zeroDivision
  within tolerance a := rationalWithin tolerance (if a < 0 then -a else a)
  ofScalar?
    | .integer n => some n
    | .rational q => some q
    | _ => none
  toScalar := .rational
  text := rationalText

instance : Coefficient BinaryReal where
  domain := .reals
  exquo? := BinaryReal.divide?
  divisionFailure _ := .zeroDivision
  within tolerance a := realWithin tolerance a.magnitude.toRat
  ofScalar?
    | .integer n => some (BinaryReal.round n)
    | .rational q => some (BinaryReal.ofRat q)
    | .real x => some ⟨x⟩
    | .residue _ _ => none
  toScalar a := .real a.value
  text a := Decimal.text a.value.toRat

instance (n : Nat) : Coefficient (Residue n) where
  domain := .residues n
  exquo? := Residue.divide?
  divisionFailure _ := .notInvertible
  within _ _ := .error .noOperator
  ofScalar?
    | .integer k => some (Residue.ofInt n k)
    | .rational q => if q.den = 1 then some (Residue.ofInt n q.num) else none
    | .residue _ r => some (Residue.ofNat n r.val)
    | .real _ => none
  toScalar := .residue n
  text a := Nat.repr a.val ++ " mod " ++ Nat.repr n

variable {R : Type} [Coefficient R]

/-- Division that must come out even. -/
def exactQuotient (a b : R) : Except Failure R :=
  match exquo? a b with
  | some c => .ok c
  | none => .error (.arithmetic (.indivisible (text a) (text b) (domain R).text))

def inverse [One R] (a : R) : Except Failure R :=
  exactQuotient 1 a

/-- Division, where a division that is not exact fails in the way of the domain. -/
def exquo (a b : R) : Except Failure R :=
  match exquo? a b with
  | some c => .ok c
  | none => .error (divisionFailure b)

/-- The element for an operand, where an operand that is no number has none. -/
def ofOperand? (v : Option Scalar) : Except Failure R :=
  match v.bind ofScalar? with
  | some c => .ok c
  | none => .error .noConversion

end Coefficient

namespace Domain

instance (D : Domain) : Zero D.Elem :=
  match D with
  | integers => inferInstanceAs (Zero Int)
  | rationals => inferInstanceAs (Zero Rat)
  | reals => inferInstanceAs (Zero BinaryReal)
  | residues n => inferInstanceAs (Zero (Residue n))

instance (D : Domain) : One D.Elem :=
  match D with
  | integers => inferInstanceAs (One Int)
  | rationals => inferInstanceAs (One Rat)
  | reals => inferInstanceAs (One BinaryReal)
  | residues n => inferInstanceAs (One (Residue n))

instance (D : Domain) : Add D.Elem :=
  match D with
  | integers => inferInstanceAs (Add Int)
  | rationals => inferInstanceAs (Add Rat)
  | reals => inferInstanceAs (Add BinaryReal)
  | residues n => inferInstanceAs (Add (Residue n))

instance (D : Domain) : Sub D.Elem :=
  match D with
  | integers => inferInstanceAs (Sub Int)
  | rationals => inferInstanceAs (Sub Rat)
  | reals => inferInstanceAs (Sub BinaryReal)
  | residues n => inferInstanceAs (Sub (Residue n))

instance (D : Domain) : Mul D.Elem :=
  match D with
  | integers => inferInstanceAs (Mul Int)
  | rationals => inferInstanceAs (Mul Rat)
  | reals => inferInstanceAs (Mul BinaryReal)
  | residues n => inferInstanceAs (Mul (Residue n))

instance (D : Domain) : Neg D.Elem :=
  match D with
  | integers => inferInstanceAs (Neg Int)
  | rationals => inferInstanceAs (Neg Rat)
  | reals => inferInstanceAs (Neg BinaryReal)
  | residues n => inferInstanceAs (Neg (Residue n))

instance (D : Domain) : Pow D.Elem Nat :=
  match D with
  | integers => ⟨Int.pow⟩
  | rationals => ⟨Rat.pow⟩
  | reals => inferInstanceAs (Pow BinaryReal Nat)
  | residues n => inferInstanceAs (Pow (Residue n) Nat)

instance (D : Domain) : DecidableEq D.Elem :=
  match D with
  | integers => inferInstanceAs (DecidableEq Int)
  | rationals => inferInstanceAs (DecidableEq Rat)
  | reals => inferInstanceAs (DecidableEq BinaryReal)
  | residues n => inferInstanceAs (DecidableEq (Residue n))

instance (D : Domain) : Coefficient D.Elem :=
  match D with
  | integers => inferInstanceAs (Coefficient Int)
  | rationals => inferInstanceAs (Coefficient Rat)
  | reals => inferInstanceAs (Coefficient BinaryReal)
  | residues n => inferInstanceAs (Coefficient (Residue n))

end Domain

end PolyIdeal
