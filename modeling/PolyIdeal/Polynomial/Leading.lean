import PolyIdeal.Polynomial.Basic

/-!
# Leading terms

The leading monomial is the highest that occurs. Tolerances count small coefficients as zero.
-/

namespace PolyIdeal.Polynomial

variable {R : Type} [Zero R] [One R] [DecidableEq R] [Add R] [Sub R] [Mul R] [Neg R] [Coefficient R]

def text (p : Polynomial R) : String :=
  termsText p.terms

def describe (p : Polynomial R) : String :=
  let kind := match p with
    | univariate _ => "UnivariatePolynomial"
    | multinomial _ => "Multinomial"
  kind ++ "(" ++ p.text ++ ", " ++ (Coefficient.domain R).text ++ ")"

def leadingTerm (order : Order) (p : Polynomial R) : Except Failure (Monomial × R) :=
  match p.monomials with
  | [] => .error (.invalid .zeroWithoutLeadingMonomial)
  | m :: ms => do
    (m :: ms).forM fun m => order.check m.toInts
    let lm := order.maxFrom m ms
    return (lm, p.coefficient lm)

def leadingMonomial (order : Order) (p : Polynomial R) : Except Failure Monomial :=
  (p.leadingTerm order).map Prod.fst

def leadingCoefficient (order : Order) (p : Polynomial R) : Except Failure R :=
  (p.leadingTerm order).map Prod.snd

def monic (order : Order) (p : Polynomial R) : Except Failure (Polynomial R) :=
  match p with
  | univariate p => p.monic.map univariate
  | multinomial q =>
    if q.isZero then .ok p
    else do
      let lc ← p.leadingCoefficient order
      return p.scale (← Coefficient.inverse lc)

/-- Whether every coefficient is within the tolerance. -/
def isZeroWithin (tolerance : Option Tolerance) (p : Polynomial R) : Except Failure Bool :=
  match tolerance with
  | none => .ok p.isZero
  | some t => within t p.coefficients
where
  within (t : Tolerance) : List R → Except Failure Bool
    | [] => .ok true
    | c :: cs => do if ← Coefficient.within t c then within t cs else return false

def chop (tolerance : Option Tolerance) (p : Polynomial R) : Except Failure (Polynomial R) :=
  match tolerance with
  | none => .ok p
  | some t => do
    let kept ← p.terms.filterM fun term => return !(← Coefficient.within t term.2)
    return if kept.length = p.terms.length then p else p.ofTermsLike kept

end PolyIdeal.Polynomial
