import PolyIdeal.Polynomial.Basic

/-!
# Polynomials from outside

Operations whose arguments may not fit: exponents come as integers, coefficients as numbers of any
domain or as operands that are no numbers, and terms from polynomials over another domain.
-/

namespace PolyIdeal

/-- A term before its exponents and its coefficient are checked. -/
abbrev RawTerm := List Int × Option Scalar

namespace RawTerm

/-- Replaces the coefficient at exponents that occur, or adds a term behind the others. -/
def assign (terms : List RawTerm) (term : RawTerm) : List RawTerm :=
  match terms with
  | [] => [term]
  | t :: terms => if t.1 = term.1 then term :: terms else t :: assign terms term

/-- Terms as a mapping: of terms at the same exponents the last one counts, in the first one's
place. -/
def mapping (terms : List RawTerm) : List RawTerm :=
  terms.foldl assign []

end RawTerm

variable {R : Type} [Zero R] [DecidableEq R] [Add R] [Sub R] [Mul R] [Neg R] [Coefficient R]

/-- Coefficients, where one without a counterpart makes all of them invalid. -/
def convertAll (cs : List (Option Scalar)) (failure : Failure) : Except Failure (List R) :=
  match cs.mapM (·.bind Coefficient.ofScalar?) with
  | some cs => .ok cs
  | none => .error failure

namespace Univariate

omit [Add R] [Sub R] [Mul R] [Neg R] in
def fromCoefficients (cs : List (Option Scalar)) : Except Failure (Univariate R) := do
  let cs ← convertAll cs (.invalid (.foreignCoefficients (Coefficient.domain R).text))
  return ofCoefficients cs

def fromTerms (terms : List RawTerm) (nvars : Int) : Except Failure (Univariate R) := do
  if nvars ≠ 1 then throw (.invalid (.notOneVariable nvars))
  let ms ← terms.mapM fun term => Monomial.ofInts? term.1
  if ms.any fun m => m.length ≠ 1 then
    throw (.invalid (.notUnivariate (terms.map Prod.fst)))
  let cs ← terms.mapM fun term => Coefficient.ofOperand? term.2
  return ofTerms ((ms.map fun m => m.getD 0 0).zip cs)

omit [Add R] [Sub R] [Mul R] [Neg R] in
/-- The term `c * X^k`, where no coefficient stands for one and a negative exponent for zero. -/
def fromMonomial [One R] (k : Int) (c : Option (Option Scalar)) :
    Except Failure (Univariate R) := do
  let c ← match c with
    | none => pure 1
    | some c => match c.bind Coefficient.ofScalar? with
      | some c => pure c
      | none => throw (.invalid (.foreignCoefficients (Coefficient.domain R).text))
  return ofCoefficients (List.replicate k.toNat 0 ++ [c])

end Univariate

namespace Multinomial

def fromTerms (terms : List RawTerm) (nvars : Int) : Except Failure (Multinomial R) := do
  let ms ← terms.mapM fun term => Monomial.ofInts? term.1
  ms.forM fun m =>
    if (m.length : Int) = nvars then .ok ()
    else .error (.invalid (.monomialArity m.toInts nvars))
  let cs ← convertAll (terms.map Prod.snd)
    (.invalid (.foreignCoefficients (Coefficient.domain R).text))
  if h : 0 < nvars.toNat then return ofTerms nvars.toNat h (ms.zip cs)
  else throw .badValue

def variableAt [One R] (index nvars : Int) : Except Failure (Multinomial R) :=
  if 0 ≤ index ∧ index < nvars then
    if h : 0 < nvars.toNat then
      .ok (ofTerms nvars.toNat h
        [((List.range nvars.toNat).map fun i => if i = index.toNat then 1 else 0, 1)])
    else .error .badValue
  else .error (.invalid (.variableIndex index nvars))

def allVariables [One R] (nvars : Int) : Except Failure (List (Multinomial R)) :=
  (List.range nvars.toNat).mapM fun i => variableAt (Int.ofNat i) nvars

end Multinomial

namespace Polynomial

def constantOf (p : Polynomial R) (c : Option Scalar) : Except Failure (Polynomial R) :=
  match p, c.bind (Coefficient.ofScalar? (R := R)) with
  | _, some c => .ok (p.constantLike c)
  | univariate _, none => .error .noConversion
  | multinomial _, none =>
    .error (.invalid (.foreignCoefficients (Coefficient.domain R).text))

def scaleBy (p : Polynomial R) (c : Option Scalar) : Except Failure (Polynomial R) :=
  (Coefficient.ofOperand? c).map p.scale

def checkMonomial (p : Polynomial R) (m : Monomial) : Except Failure Unit :=
  match p with
  | univariate _ => if m.length = 1 then .ok () else .error .badValue
  | multinomial p => Monomial.checkArity m.toInts (Monomial.unit p.nvars).toInts

def mulTermBy (p : Polynomial R) (exponents : List Int) (c : Option Scalar) :
    Except Failure (Polynomial R) := do
  let m ← Monomial.ofInts? exponents
  p.checkMonomial m
  p.mulTerm m (← Coefficient.ofOperand? c)

omit [Add R] [Sub R] [Mul R] [Neg R] [Coefficient R] in
/-- The coefficient at exponents that may be negative. -/
def coefficientAt (p : Polynomial R) (exponents : List Int) : Except Failure R := do
  Monomial.checkArity exponents (Monomial.unit p.nvars).toInts
  return if exponents.all (0 ≤ ·) then p.coefficient (exponents.map Int.toNat) else 0

omit [Sub R] [Mul R] [Neg R] [Coefficient R] in
/-- The polynomial without its term at exponents, which need not fit. -/
def withoutExponents (p : Polynomial R) (exponents : List Int) : Polynomial R :=
  p.filterTerms fun term => term.1.toInts ≠ exponents

/-- The value at a point, whose length has to fit. -/
def evaluateAt [Pow R Nat] (p : Polynomial R) (point : List R) : Except Failure R :=
  match p with
  | univariate p => match point with
    | [x] => .ok (p.evaluate x)
    | _ => .error .badValue
  | multinomial q =>
    if point.length = q.nvars then .ok (q.evaluate point)
    else .error (.invalid (.pointLength q.nvars point.length))

omit [Sub R] [Mul R] [Neg R] [Add R] in
def scalarTerms (p : Polynomial R) : List (Monomial × Scalar) :=
  p.terms.map fun (m, c) => (m, Coefficient.toScalar c)

def setDomain {S : Type} [Zero S] [DecidableEq S] [Add S] [Sub S] [Mul S] [Neg S] [Coefficient S]
    (p : Polynomial R) : Except Failure (Polynomial S) := do
  let cs ← p.scalarTerms.mapM fun term => Coefficient.ofOperand? (R := S) (some term.2)
  match p with
  | univariate p => return univariate (Univariate.ofTerms
      ((p.terms.map fun term => term.1.getD 0 0).zip cs))
  | multinomial p => return multinomial (Multinomial.ofTerms p.nvars p.nvars_pos
      ((p.terms.map Prod.fst).zip cs))

end Polynomial

end PolyIdeal
