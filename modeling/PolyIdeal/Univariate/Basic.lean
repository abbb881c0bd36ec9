import PolyIdeal.Coefficient.Basic
import PolyIdeal.Monomial.Basic

/-!
# Polynomials in one variable

A polynomial `a0 + a1 * X + ... + an * X^n` is the list of its coefficients from the lowest, without
zeros at its end. Coefficient lists that may end in zeros are trimmed by `ofCoefficients`.
-/

namespace PolyIdeal

/-- Coefficients without the zeros at their end. -/
def trimZeros {R : Type} [Zero R] [DecidableEq R] : List R → List R
  | [] => []
  | a :: as =>
    match trimZeros as with
    | [] => if a = 0 then [] else [a]
    | b :: bs => a :: b :: bs

theorem getLast?_trimZeros {R : Type} [Zero R] [DecidableEq R] (as : List R) :
    (trimZeros as).getLast? ≠ some 0 := by
  induction as with
  | nil => simp [trimZeros]
  | cons a as ih =>
    rw [trimZeros]
    split
    · split <;> simp_all
    · rename_i h
      rw [h] at ih
      simpa [List.getLast?_cons_cons] using ih

structure Univariate (R : Type) [Zero R] where
  coefficients : List R
  trimmed : coefficients.getLast? ≠ some 0

namespace Univariate

variable {R : Type} [Zero R]

@[ext] theorem ext {p q : Univariate R} (h : p.coefficients = q.coefficients) : p = q := by
  cases p; cases q; simp_all

instance [DecidableEq R] : DecidableEq (Univariate R) := fun p q =>
  decidable_of_iff (p.coefficients = q.coefficients) ⟨ext, fun h => h ▸ rfl⟩

instance : Zero (Univariate R) := ⟨⟨[], by simp⟩⟩

variable [DecidableEq R]

def ofCoefficients (as : List R) : Univariate R :=
  ⟨trimZeros as, getLast?_trimZeros as⟩

def isZero (p : Univariate R) : Bool :=
  p.coefficients.isEmpty

/-- The number of coefficients, one more than the degree unless the polynomial is zero. -/
def size (p : Univariate R) : Nat :=
  p.coefficients.length

/-- The degree, which is -1 for zero. -/
def degree (p : Univariate R) : Int :=
  (p.size : Int) - 1

def coefficient (p : Univariate R) (i : Nat) : R :=
  p.coefficients.getD i 0

def leadingCoefficient? (p : Univariate R) : Option R :=
  p.coefficients.getLast?

def terms (p : Univariate R) : List (Monomial × R) :=
  (p.coefficients.zipIdx.map fun term => ([term.2], term.1)).filter fun term => term.2 ≠ 0

def constant (c : R) : Univariate R :=
  ofCoefficients [c]

variable [Add R] [Sub R] [Mul R] [Neg R]

/-- The sum of terms, each added at its exponent in turn. -/
def ofTerms (terms : List (Nat × R)) : Univariate R :=
  let size := (terms.map fun term => term.1 + 1).foldl max 0
  ofCoefficients
    (terms.foldl (fun as term => as.modify term.1 (· + term.2)) (List.replicate size 0))

/-- Sums of coefficients; what is left of the longer list is kept. -/
def addCoefficients : List R → List R → List R
  | [], bs => bs
  | as, [] => as
  | a :: as, b :: bs => (a + b) :: addCoefficients as bs

def subCoefficients : List R → List R → List R
  | [], bs => bs.map (0 - ·)
  | as, [] => as
  | a :: as, b :: bs => (a - b) :: subCoefficients as bs

instance : Add (Univariate R) :=
  ⟨fun p q => ofCoefficients (addCoefficients p.coefficients q.coefficients)⟩

instance : Sub (Univariate R) :=
  ⟨fun p q => ofCoefficients (subCoefficients p.coefficients q.coefficients)⟩

instance : Neg (Univariate R) :=
  ⟨fun p => ofCoefficients (p.coefficients.map (- ·))⟩

/-- The product `c * X^k * p`. -/
def mulTerm (p : Univariate R) (k : Nat) (c : R) : Univariate R :=
  if p.isZero ∨ c = 0 then 0
  else ofCoefficients (List.replicate k 0 ++ p.coefficients.map (c * ·))

/-- The value at a point, by Horner's scheme. -/
def evaluate (p : Univariate R) (x : R) : R :=
  p.coefficients.foldr (fun c r => r * x + c) 0

end Univariate

end PolyIdeal
