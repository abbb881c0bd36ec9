import Mathlib.Algebra.MvPolynomial.PDeriv
import PolyIdeal.Polynomial.Conversion
import PolyIdeal.Proofs.Coefficient.Integer
import PolyIdeal.Proofs.Polynomial.Evaluation
import PolyIdeal.Proofs.Univariate.Karatsuba
import PolyIdeal.Univariate.Calculus

/-!
# Derivatives

Differentiation is a derivation of the polynomials in one variable: it is linear, and products and
powers are differentiated by Leibniz's rule, however products are formed. This holds over every ring
in which integers are coefficients, also where multiples of the coefficients vanish.
-/

namespace PolyIdeal.Univariate

open PolyIdeal.Polynomial

variable {R : Type} [CommRing R] [DecidableEq R] [Coefficient R] [IntegerCoefficient R]

omit [DecidableEq R] in
theorem natural_eq_cast (i : ℕ) : natural i = (i : R) := by
  rw [natural, IntegerCoefficient.ofScalar?_integer, Option.getD_some, Int.cast_natCast]

theorem coefficient_derivative (f : Univariate R) (i : ℕ) :
    f.derivative.coefficient i = (i + 1) * f.coefficient (i + 1) := by
  rw [derivative, coefficient_ofCoefficients]
  simp only [coefficient, List.getD_eq_getElem?_getD, List.getElem?_map, List.getElem?_zipIdx,
    List.getElem?_drop, Nat.zero_add, Nat.add_comm 1 i, natural_eq_cast]
  cases f.coefficients[i + 1]? <;> simp

/-- The derivative is the partial derivative of the polynomial that a coefficient list stands for. -/
private theorem horner_derivative (f : Univariate R) :
    horner f.derivative.coefficients = MvPolynomial.pderiv 0 (horner f.coefficients) := by
  ext e
  rw [MvPolynomial.coeff_pderiv, coeff_horner, coeff_horner, mul_comm, Finsupp.add_apply,
    Finsupp.single_eq_same]
  exact coefficient_derivative f (e 0)

theorem derivative_add (f g : Univariate R) :
    (f + g).derivative = f.derivative + g.derivative := by
  apply horner_injective
  simp only [horner_derivative, horner_add, map_add]

private theorem derivative_mulTerm_zero (f : Univariate R) (c : R) :
    (f.mulTerm 0 c).derivative = f.derivative.mulTerm 0 c := by
  apply horner_injective
  simp only [horner_derivative, horner_mulTerm, pow_zero, mul_one, MvPolynomial.pderiv_C_mul]

theorem derivative_mul (f g : Univariate R) :
    (f * g).derivative = f.derivative * g + f * g.derivative := by
  apply horner_injective
  simp only [horner_derivative, horner_add, horner_mul, MvPolynomial.pderiv_mul]

omit [Coefficient R] [IntegerCoefficient R] in
theorem multiply_ok (method : Method) (f g : Univariate R) : multiply method f g = .ok (f * g) := by
  cases method with
  | convolution => rfl
  | karatsuba => exact karatsuba_ok f g

omit [Coefficient R] [IntegerCoefficient R] in
private theorem exists_power (f : Univariate R) (k : ℕ) :
    ∃ F, (univariate f).power k = univariate F ∧
      horner F.coefficients = horner f.coefficients ^ k := by
  have hkind := isUnivariate_power (univariate f) k
  have hdenote := (power_spec (p := univariate f) (n := 1) rfl k).2
  cases hpower : (univariate f).power k with
  | univariate F =>
    rw [hpower, denote_univariate, denote_univariate] at hdenote
    exact ⟨F, rfl, hdenote⟩
  | multinomial F =>
    rw [hpower] at hkind
    cases hkind

/-- What makes differentiation a derivation of the polynomials over a ring. -/
structure IsDerivation (R : Type) [CommRing R] [DecidableEq R] [Coefficient R] : Prop where
  add : ∀ f g : Univariate R, (f + g).derivative = f.derivative + g.derivative
  scale : ∀ (f : Univariate R) (c : R), ∃ F, (univariate f).scale c = univariate F ∧
    (univariate f.derivative).scale c = univariate F.derivative
  /-- Each of the three products may be formed in either way. -/
  mul : ∀ (f g : Univariate R) (m m₁ m₂ : Method), ∃ h h₁ h₂, multiply m f g = .ok h ∧
    multiply m₁ f.derivative g = .ok h₁ ∧ multiply m₂ f g.derivative = .ok h₂ ∧
      h.derivative = h₁ + h₂
  power : ∀ (f : Univariate R) (k : ℕ) (m : Method), ∃ F G H,
    (univariate f).power (k + 1) = univariate F ∧ (univariate f).power k = univariate G ∧
      multiply m G f.derivative = .ok H ∧
        (univariate H).scaleBy (some (.integer (k + 1))) = .ok (univariate F.derivative)

/-- Differentiation is a derivation, also where products of coefficients or their multiples
vanish. -/
theorem isDerivation (R : Type) [CommRing R] [DecidableEq R] [Coefficient R]
    [IntegerCoefficient R] : IsDerivation R where
  add := derivative_add
  scale f c := ⟨f.mulTerm 0 c, rfl, congrArg univariate (derivative_mulTerm_zero f c).symm⟩
  mul f g m m₁ m₂ := ⟨f * g, f.derivative * g, f * g.derivative, multiply_ok m _ _,
    multiply_ok m₁ _ _, multiply_ok m₂ _ _, derivative_mul f g⟩
  power f k m := by
    obtain ⟨F, hF, hFpow⟩ := exists_power f (k + 1)
    obtain ⟨G, hG, hGpow⟩ := exists_power f k
    refine ⟨F, G, G * f.derivative, hF, hG, multiply_ok m _ _, ?_⟩
    have hderivative : (G * f.derivative).mulTerm 0 ((k + 1 : ℤ) : R) = F.derivative := by
      apply horner_injective
      rw [horner_mulTerm, horner_mul, horner_derivative, horner_derivative, hFpow, hGpow,
        MvPolynomial.pderiv_pow, Nat.add_sub_cancel, map_intCast]
      push_cast
      ring
    rw [scaleBy, Coefficient.ofOperand?, Option.bind_some,
      IntegerCoefficient.ofScalar?_integer]
    exact congrArg (fun H => Except.ok (univariate H)) hderivative

theorem isDerivation_residues : IsDerivation (Residue 4) :=
  isDerivation (Residue 4)

end PolyIdeal.Univariate
