import PolyIdeal.Coefficient.BinaryReal
import PolyIdeal.Coefficient.Residue
import PolyIdeal.Text.Basic

/-!
# Coefficient domains

The four kinds of coefficients: integers, rationals, binary real numbers, and residues modulo `n`.
-/

namespace PolyIdeal

inductive Domain
  | integers
  | rationals
  | reals
  | residues (modulus : Nat)
  deriving DecidableEq

/-- No divisor of `n` lies between `d` and the square root of `n`. -/
def noDivisorFrom (n d : Nat) : Bool :=
  if h : d * d ≤ n ∧ d ≠ 0 then
    if n % d = 0 then false else noDivisorFrom n (d + 1)
  else true
  termination_by n + 1 - d
  decreasing_by
    have : d ≤ d * d := Nat.le_mul_of_pos_left d (Nat.pos_of_ne_zero h.2)
    omega

/-- Primality by trial division. -/
def isPrime (n : Nat) : Bool :=
  2 ≤ n && noDivisorFrom n 2

namespace Domain

/-- The type of the elements of a domain. -/
abbrev Elem : Domain → Type
  | integers => Int
  | rationals => Rat
  | reals => BinaryReal
  | residues n => Residue n

def isField : Domain → Bool
  | integers => false
  | rationals | reals => true
  | residues n => isPrime n

def text : Domain → String
  | integers => "ZZ"
  | rationals => "QQ"
  | reals => "RR"
  | residues n => "GF(" ++ Nat.repr n ++ ")"

end Domain

/-- A number of some domain. -/
inductive Scalar
  | integer (n : Int)
  | rational (q : Rat)
  | real (x : Dyadic)
  | residue (modulus : Nat) (r : Residue modulus)

/-- The bound within which a coefficient counts as zero. -/
inductive Tolerance
  | number (s : Scalar)
  /-- A value that no coefficient can be compared with. -/
  | incomparable

end PolyIdeal
