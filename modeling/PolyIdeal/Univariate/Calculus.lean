import PolyIdeal.Univariate.Basic

/-!
# Derivatives and antiderivatives

Both work on coefficients: the coefficient of `X^i` is multiplied by `i`, or divided by `i + 1`.
-/

namespace PolyIdeal.Univariate

variable {R : Type} [Zero R] [One R] [DecidableEq R] [Add R] [Sub R] [Mul R] [Neg R] [Coefficient R]

def natural (i : Nat) : R :=
  (Coefficient.ofScalar? (.integer i)).getD 0

def derivative (f : Univariate R) : Univariate R :=
  ofCoefficients ((f.coefficients.drop 1).zipIdx.map fun (c, i) => natural (i + 1) * c)

/-- The antiderivative with constant term zero. -/
def antiderivative (f : Univariate R) : Except Failure (Univariate R) :=
  if (Coefficient.domain R).isField then do
    let cs ← f.coefficients.zipIdx.mapM fun (c, i) =>
      Coefficient.exactQuotient c (natural (i + 1))
    return ofCoefficients (0 :: cs)
  else .error (.unsupported (.integrationOver (Coefficient.domain R).text))

end PolyIdeal.Univariate
