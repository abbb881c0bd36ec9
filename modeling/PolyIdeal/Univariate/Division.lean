import PolyIdeal.Monomial.Printer
import PolyIdeal.Univariate.Basic

/-!
# Euclidean division

Division with remainder in one variable over a field, and exact division. Coefficients of the
quotient are found from the highest down; once nothing is left of the dividend the others are
zero.
-/

namespace PolyIdeal.Univariate

variable {R : Type} [Zero R] [One R] [DecidableEq R] [Add R] [Sub R] [Mul R] [Neg R] [Coefficient R]

def text (p : Univariate R) : String :=
  termsText p.terms

/-- The coefficients below `X^k` of the quotient of `f` by `g`, and the remainder, where `c` is the
inverse of the leading coefficient of `g`. -/
def divideBelow (g : Univariate R) (c : R) : Nat → Univariate R → List R × Univariate R
  | 0, f => ([], f)
  | k + 1, f =>
    let q := f.coefficient (k + (g.size - 1)) * c
    let rest := f - g.mulTerm k q
    if rest.isZero then (List.replicate k 0 ++ [q], rest)
    else
      let (qs, r) := divideBelow g c k rest
      (qs ++ [q], r)

def divMod (f g : Univariate R) : Except Failure (Univariate R × Univariate R) :=
  match g.leadingCoefficient? with
  | none => .error (.arithmetic (.divisionBy g.text))
  | some lc =>
    if (Coefficient.domain R).isField then
      if f.size < g.size then .ok (0, f)
      else do
        let c ← Coefficient.inverse lc
        let (qs, r) := divideBelow g c (f.size - g.size + 1) f
        return (ofCoefficients qs, r)
    else .error (.unsupported (.divisionOver (Coefficient.domain R).text))

def quotient (f g : Univariate R) : Except Failure (Univariate R) :=
  (divMod f g).map Prod.fst

def modulo (f g : Univariate R) : Except Failure (Univariate R) :=
  (divMod f g).map Prod.snd

def exactQuotient (f g : Univariate R) : Except Failure (Univariate R) := do
  let (q, r) ← divMod f g
  if r.isZero then return q
  else throw (.arithmetic (.inexactQuotient f.text g.text))

def monic (f : Univariate R) : Except Failure (Univariate R) :=
  match f.leadingCoefficient? with
  | none => .ok f
  | some lc => do
    let c ← Coefficient.inverse lc
    return f.mulTerm 0 c

end PolyIdeal.Univariate
