import PolyIdeal.Monomial.Printer
import PolyIdeal.Multinomial.Arithmetic
import PolyIdeal.Order.Basic
import PolyIdeal.Univariate.Division
import PolyIdeal.Univariate.Product

/-!
# Polynomials

A polynomial is kept as a coefficient list or as a coefficient tensor. Operations on two polynomials
want the same number of variables, and the result is kept in the way of the left operand.
-/

namespace PolyIdeal

inductive Polynomial (R : Type) [Zero R]
  | univariate (p : Univariate R)
  | multinomial (p : Multinomial R)

namespace Polynomial

variable {R : Type} [Zero R] [DecidableEq R]

instance : DecidableEq (Polynomial R)
  | univariate p, univariate q =>
    decidable_of_iff (p = q) ⟨fun h => h ▸ rfl, Polynomial.univariate.inj⟩
  | multinomial p, multinomial q =>
    decidable_of_iff (p = q) ⟨fun h => h ▸ rfl, Polynomial.multinomial.inj⟩
  | univariate _, multinomial _ => isFalse nofun
  | multinomial _, univariate _ => isFalse nofun

def nvars : Polynomial R → Nat
  | univariate _ => 1
  | multinomial p => p.nvars

omit [DecidableEq R] in
theorem nvars_pos : (p : Polynomial R) → 0 < p.nvars
  | univariate _ => Nat.one_pos
  | multinomial p => p.nvars_pos

def terms : Polynomial R → List (Monomial × R)
  | univariate p => p.terms
  | multinomial p => p.terms

def monomials (p : Polynomial R) : List Monomial :=
  p.terms.map Prod.fst

def coefficients (p : Polynomial R) : List R :=
  p.terms.map Prod.snd

/-- The coefficient of a monomial in the variables of the polynomial. -/
def coefficient : Polynomial R → Monomial → R
  | univariate p, [i] => p.coefficient i
  | univariate _, _ => 0
  | multinomial p, m => p.coefficient m

def isZero : Polynomial R → Bool
  | univariate p => p.isZero
  | multinomial p => p.isZero

/-- The highest total degree of a monomial, -1 for zero. -/
def degree : Polynomial R → Int
  | univariate p => p.degree
  | multinomial p =>
    ((p.terms.map fun term => Monomial.totalDegree term.1 + 1).foldl max 0 : Nat) - 1

/-- Whether the same monomials occur with the same coefficients. -/
def agrees (p q : Polynomial R) : Bool :=
  p.nvars == q.nvars && p.terms == q.terms

variable [Add R] [Sub R] [Mul R] [Neg R]

/-- The sum of terms, kept in the way of `p` and in its variables. -/
def ofTermsLike (p : Polynomial R) (terms : List (Monomial × R)) : Polynomial R :=
  match p with
  | univariate _ => univariate (Univariate.ofTerms (terms.map fun (m, c) => (m.getD 0 0, c)))
  | multinomial p => multinomial (Multinomial.ofTerms p.nvars p.nvars_pos terms)

def zeroLike (p : Polynomial R) : Polynomial R :=
  p.ofTermsLike []

def constantLike (p : Polynomial R) (c : R) : Polynomial R :=
  p.ofTermsLike [(Monomial.unit p.nvars, c)]

def oneLike [One R] (p : Polynomial R) : Polynomial R :=
  p.constantLike 1

/-- The terms whose monomial passes a test. -/
def filterTerms (p : Polynomial R) (keep : Monomial × R → Bool) : Polynomial R :=
  p.ofTermsLike (p.terms.filter keep)

def without (p : Polynomial R) (m : Monomial) : Polynomial R :=
  p.filterTerms fun term => term.1 ≠ m

/-- The polynomial `q` kept in the way of `p`. -/
def convertLike (p q : Polynomial R) : Polynomial R :=
  match p, q with
  | univariate _, univariate _ => q
  | multinomial _, multinomial _ => q
  | _, _ => p.ofTermsLike q.terms

/-- Applies an operation to polynomials in the same variables. -/
def combine (f : Univariate R → Univariate R → Univariate R)
    (g : Multinomial R → Multinomial R → Multinomial R) (p q : Polynomial R) :
    Except Failure (Polynomial R) :=
  if p.nvars = q.nvars then
    match p, p.convertLike q with
    | univariate p, univariate q => .ok (univariate (f p q))
    | multinomial p, multinomial q => .ok (multinomial (g p q))
    | _, q => .ok q
  else .error (.invalid (.differentRings p.nvars q.nvars))

def add (p q : Polynomial R) : Except Failure (Polynomial R) :=
  combine (· + ·) (· + ·) p q

def sub (p q : Polynomial R) : Except Failure (Polynomial R) :=
  combine (· - ·) (· - ·) p q

def mul (p q : Polynomial R) : Except Failure (Polynomial R) :=
  combine (· * ·) (· * ·) p q

instance : Neg (Polynomial R) := ⟨fun
  | univariate p => univariate (-p)
  | multinomial p => multinomial (-p)⟩

/-- The product `c * X^u * p`; the monomial has to fit the variables of `p`. -/
def mulTerm (p : Polynomial R) (u : Monomial) (c : R) : Except Failure (Polynomial R) :=
  match p with
  | univariate p =>
    match u with
    | [k] => .ok (univariate (p.mulTerm k c))
    | _ => .error .badValue
  | multinomial p =>
    if h : u.length = p.nvars then .ok (multinomial (p.mulTerm u h c))
    else .error (.invalid (.arities u.toInts (Monomial.unit p.nvars).toInts))

def scale (p : Polynomial R) (c : R) : Polynomial R :=
  match p with
  | univariate p => univariate (p.mulTerm 0 c)
  | multinomial p => multinomial (p.mulTerm (Monomial.unit p.nvars) (by simp [Monomial.unit]) c)

/-- Multiplies powers for the binary digits of `k`, the lowest first, onto `acc`. -/
def powerOnto (mul : Polynomial R → Polynomial R → Polynomial R) (acc base : Polynomial R)
    (k : Nat) : Polynomial R :=
  if k = 0 then acc
  else
    let acc := if k % 2 = 1 then mul acc base else acc
    if k / 2 = 0 then acc else powerOnto mul acc (mul base base) (k / 2)
  termination_by k
  decreasing_by omega

/-- The product of polynomials that are kept in one way and have the same variables. -/
def mulLike : Polynomial R → Polynomial R → Polynomial R
  | univariate p, univariate q => univariate (p * q)
  | multinomial p, multinomial q => multinomial (p * q)
  | p, _ => p

def power [One R] (p : Polynomial R) (k : Nat) : Polynomial R :=
  powerOnto mulLike p.oneLike p k

def evaluate [Pow R Nat] : Polynomial R → List R → R
  | univariate p, point => p.evaluate (point.getD 0 0)
  | multinomial p, point => p.evaluate point

end Polynomial

end PolyIdeal
