import PolyIdeal.Polynomial.Basic

/-!
# Building polynomials term by term

A builder collects terms in the order in which their monomials first came. Every change starts a new
generation, by which cursors notice that their terms are out of date.
-/

namespace PolyIdeal

structure Builder (R : Type) where
  nvars : Nat
  terms : List (Monomial × R) := []
  generation : Nat := 0

namespace Builder

variable {R : Type} [Zero R] [DecidableEq R] [Add R] [Coefficient R]

omit [Zero R] [DecidableEq R] [Add R] [Coefficient R] in
def create (nvars : Int) : Except Failure (Builder R) :=
  if nvars < 1 then .error (.invalid (.noVariables nvars)) else .ok { nvars := nvars.toNat }

omit [Zero R] [DecidableEq R] [Add R] [Coefficient R] in
/-- Exponents that fit the variables of the builder. -/
def monomial? (b : Builder R) (exponents : List Int) : Except Failure Monomial := do
  let m ← Monomial.ofInts? exponents
  if m.length = b.nvars then return m
  else throw (.invalid (.monomialArity exponents b.nvars))

/-- Puts a coefficient at a monomial, at the end if the monomial is new. -/
def put (terms : List (Monomial × R)) (m : Monomial) (c : R) : List (Monomial × R) :=
  match terms with
  | [] => [(m, c)]
  | term :: terms => if term.1 = m then (m, c) :: terms else term :: put terms m c

def erase (terms : List (Monomial × R)) (m : Monomial) : List (Monomial × R) :=
  terms.filter fun term => term.1 ≠ m

def lookup (b : Builder R) (m : Monomial) : R :=
  (b.terms.lookup m).getD 0

/-- Replaces the coefficient of a monomial, which is removed if it is zero. -/
def assign (b : Builder R) (m : Monomial) (c : R) : Builder R :=
  { b with
    terms := if c = 0 then erase b.terms m else put b.terms m c
    generation := b.generation + 1 }

def increase (b : Builder R) (m : Monomial) (c : R) : Builder R :=
  b.assign m (b.lookup m + c)

/-- A request to change a builder; coefficients and terms may come from other domains. -/
inductive Request
  | set (exponents : List Int) (c : Option Scalar)
  | addTerm (exponents : List Int) (c : Option Scalar)
  | add (nvars : Nat) (terms : List (Monomial × Scalar))
  | remove (exponents : List Int)

/-- Adds terms one after the other, up to the first whose coefficient has no counterpart. -/
def addTerms (b : Builder R) : List (Monomial × Scalar) → Builder R × Except Failure Unit
  | [] => (b, .ok ())
  | (m, c) :: terms =>
    match Coefficient.ofScalar? c with
    | none => (b, .error .noConversion)
    | some c => addTerms (b.increase m c) terms

/-- The builder after a request, and whether it succeeded. -/
def apply (b : Builder R) : Request → Builder R × Except Failure Unit
  | .set exponents c =>
    match b.monomial? exponents with
    | .error e => (b, .error e)
    | .ok m =>
      match Coefficient.ofOperand? c with
      | .error e => (b, .error e)
      | .ok c => (b.assign m c, .ok ())
  | .addTerm exponents c =>
    match b.monomial? exponents with
    | .error e => (b, .error e)
    | .ok m =>
      match Coefficient.ofOperand? c with
      | .error e => (b, .error e)
      | .ok c => (b.increase m c, .ok ())
  | .add nvars terms =>
    if nvars = b.nvars then b.addTerms terms
    else (b, .error (.invalid (.builderArity nvars b.nvars)))
  | .remove exponents =>
    match b.monomial? exponents with
    | .error e => (b, .error e)
    | .ok m => ({ b with terms := erase b.terms m, generation := b.generation + 1 }, .ok ())

def get (b : Builder R) (exponents : List Int) : Except Failure R :=
  (b.monomial? exponents).map b.lookup

variable [Sub R] [Mul R] [Neg R]

/-- The polynomial with the collected terms; with one variable it is a coefficient list. -/
def build (b : Builder R) : Except Failure (Polynomial R) :=
  if b.nvars = 1 then
    .ok (.univariate (Univariate.ofTerms (b.terms.map fun (m, c) => (m.getD 0 0, c))))
  else if h : 0 < b.nvars then .ok (.multinomial (Multinomial.ofTerms b.nvars h b.terms))
  else .error .badValue

end Builder

end PolyIdeal
