import Mathlib.Data.List.GetD
import PolyIdeal.Proofs.Traced
import PolyIdeal.Proofs.Univariate.Derivative

/-!
# Antiderivatives

Over a field a polynomial has an antiderivative just if the coefficient of `X^i` is zero wherever
`i + 1` is zero. Integration divides all coefficients up to the highest, zeros as well, so that it
finds an antiderivative only where no divisor `i + 1` up to the size of the polynomial is zero: in
characteristic zero always, in characteristic `p` for polynomials of fewer than `p` coefficients.
-/

namespace PolyIdeal

namespace Coefficient

variable {R : Type} [CommRing R] [Coefficient R] [ExactCoefficient R]

private theorem exactQuotient_eq_ok_iff {a b c : R} :
    exactQuotient a b = .ok c ↔ b ≠ 0 ∧ c * b = a := by
  rw [← ExactCoefficient.exquo?_eq_some, exactQuotient]
  cases exquo? a b <;> simp

private theorem exactQuotient_zero (a : R) :
    exactQuotient a 0 = .error (.arithmetic (.indivisible (text a) (text (0 : R))
      (domain R).text)) := by
  rw [exactQuotient]
  cases hquo : exquo? a 0 with
  | none => rfl
  | some c => exact absurd rfl (ExactCoefficient.exquo?_eq_some.mp hquo).1

end Coefficient

namespace Univariate

variable {R : Type} [CommRing R] [DecidableEq R] [Coefficient R] [FieldCoefficient R]
  [IntegerCoefficient R] {f F : Univariate R}

/-- Whether some polynomial has the derivative `f`. -/
def HasAntiderivative (f : Univariate R) : Prop :=
  ∃ F : Univariate R, F.derivative = f

private theorem hasAntiderivative_iff :
    f.HasAntiderivative ↔ ∀ i : ℕ, ((i + 1 : ℕ) : R) = 0 → f.coefficient i = 0 := by
  constructor
  · intro ⟨F, hF⟩ i hi
    rw [← hF, coefficient_derivative, ← Nat.cast_succ, hi, zero_mul]
  · intro h
    have hquotient (i : ℕ) : ∃ c : R, ((i + 1 : ℕ) : R) * c = f.coefficient i := by
      by_cases hi : ((i + 1 : ℕ) : R) = 0
      · exact ⟨0, by rw [h i hi, mul_zero]⟩
      · obtain ⟨c, -, hc⟩ := Coefficient.exquo?_ok hi (f.coefficient i)
        exact ⟨c, by rw [mul_comm, hc]⟩
    choose c hc using hquotient
    refine ⟨ofCoefficients (0 :: (List.range f.size).map c), ext_coefficient fun i => ?_⟩
    rw [coefficient_derivative, coefficient_ofCoefficients, ← hc i, Nat.cast_succ]
    by_cases hi : i < f.size
    · simp [List.getD_eq_getElem?_getD, hi]
    · have hzero : f.coefficient i = 0 := size_le_iff.mp le_rfl i (not_lt.mp hi)
      rw [← Nat.cast_succ, hc i, hzero]
      simp [List.getD_eq_getElem?_getD, hi]

omit [IntegerCoefficient R] in
private theorem antiderivative_eq (f : Univariate R) : f.antiderivative = (do
    let cs ← f.coefficients.zipIdx.mapM fun t =>
      Coefficient.exactQuotient t.1 (natural (t.2 + 1))
    return ofCoefficients (0 :: cs)) := by
  rw [antiderivative, if_pos FieldCoefficient.isField_domain]

omit [DecidableEq R] in
private theorem quotient_eq_ok_iff {i : ℕ} {a c : R} :
    Coefficient.exactQuotient a (natural (i + 1)) = .ok c ↔
      ((i + 1 : ℕ) : R) ≠ 0 ∧ c * ((i + 1 : ℕ) : R) = a := by
  rw [natural_eq_cast]
  exact Coefficient.exactQuotient_eq_ok_iff

omit [DecidableEq R] in
private theorem exists_quotient {i : ℕ} (hi : ((i + 1 : ℕ) : R) ≠ 0) (a : R) :
    ∃ c, Coefficient.exactQuotient a (natural (i + 1)) = .ok c := by
  obtain ⟨c, -, hc⟩ := Coefficient.exquo?_ok hi a
  exact ⟨c, quotient_eq_ok_iff.mpr ⟨hi, hc⟩⟩

theorem antiderivative_ok (h : ∀ i < f.size, ((i + 1 : ℕ) : R) ≠ 0) :
    ∃ F, f.antiderivative = .ok F := by
  have hquotients : ∀ t ∈ f.coefficients.zipIdx,
      ∃ c, Coefficient.exactQuotient t.1 (natural (t.2 + 1)) = .ok c := by
    intro t ht
    exact exists_quotient (h t.2 (List.snd_lt_of_mem_zipIdx ht)) t.1
  obtain ⟨cs, hcs⟩ := exists_mapM_ok hquotients
  refine ⟨ofCoefficients (0 :: cs), ?_⟩
  rw [antiderivative_eq, hcs]
  rfl

/-- Integration stops at the first divisor that is zero, whatever is to be divided by it. -/
theorem antiderivative_error {i : ℕ} (hi : i < f.size) (hzero : ((i + 1 : ℕ) : R) = 0)
    (hfirst : ∀ j < i, ((j + 1 : ℕ) : R) ≠ 0) :
    f.antiderivative = .error (.arithmetic (.indivisible (Coefficient.text (f.coefficient i))
      (Coefficient.text (0 : R)) (Coefficient.domain R).text)) := by
  have hi' : i < f.coefficients.zipIdx.length := by rwa [List.length_zipIdx]
  have hplace : f.coefficients.zipIdx[i] = (f.coefficient i, i) := by
    rw [List.getElem_zipIdx, coefficient, List.getD_eq_getElem _ _ hi, Nat.zero_add]
    rfl
  have hsplit : f.coefficients.zipIdx = f.coefficients.zipIdx.take i ++
      (f.coefficient i, i) :: f.coefficients.zipIdx.drop (i + 1) := by
    rw [← hplace, ← List.drop_eq_getElem_cons, List.take_append_drop]
  have hbefore : ∀ t ∈ f.coefficients.zipIdx.take i,
      ∃ c, Coefficient.exactQuotient t.1 (natural (t.2 + 1)) = .ok c := by
    intro t ht
    obtain ⟨j, hj, rfl⟩ := List.getElem_of_mem ht
    rw [List.getElem_take, List.getElem_zipIdx, Nat.zero_add]
    rw [List.length_take] at hj
    exact exists_quotient (hfirst j (by omega)) _
  have hquotient := Coefficient.exactQuotient_zero (f.coefficient i)
  rw [← hzero, ← natural_eq_cast] at hquotient
  rw [antiderivative_eq, hsplit, mapM_error hbefore hquotient, natural_eq_cast, hzero]
  rfl

/-- What integration returns. -/
private theorem spec_of_antiderivative (hF : f.antiderivative = .ok F) :
    F.coefficient 0 = 0 ∧ F.derivative = f ∧ ∀ i < f.size, ((i + 1 : ℕ) : R) ≠ 0 := by
  rw [antiderivative_eq] at hF
  obtain ⟨cs, hcs, hF⟩ := exists_of_bind_ok hF
  obtain rfl := Except.ok.inj hF
  have hquotients := forall₂_of_mapM_ok hcs
  have hlength : cs.length = f.size := by
    rw [← hquotients.length_eq, List.length_zipIdx, size]
  have hplace (i : ℕ) (hi : i < f.size) : ((i + 1 : ℕ) : R) ≠ 0 ∧
      cs.getD i 0 * ((i + 1 : ℕ) : R) = f.coefficient i := by
    have hi' : i < cs.length := hlength ▸ hi
    have hquotient := hquotients.get (by rwa [List.length_zipIdx]) hi'
    simp only [List.get_eq_getElem, List.getElem_zipIdx, Nat.zero_add, quotient_eq_ok_iff]
      at hquotient
    rw [coefficient, List.getD_eq_getElem _ _ hi', List.getD_eq_getElem _ _ hi]
    exact hquotient
  refine ⟨coefficient_ofCoefficients _ 0, ext_coefficient fun i => ?_, fun i hi => (hplace i hi).1⟩
  rw [coefficient_derivative, coefficient_ofCoefficients, List.getD_cons_succ, mul_comm,
    ← Nat.cast_succ]
  by_cases hi : i < f.size
  · exact (hplace i hi).2
  · rw [List.getD_eq_default _ _ (by omega), zero_mul, size_le_iff.mp le_rfl i (not_lt.mp hi)]

private theorem antiderivative_eq_error_iff :
    (∃ cause, f.antiderivative = .error (.arithmetic cause)) ↔
      ∃ i < f.size, ((i + 1 : ℕ) : R) = 0 := by
  constructor
  · intro ⟨cause, hcause⟩
    by_contra hnone
    obtain ⟨F, hF⟩ := antiderivative_ok fun i hi hzero => hnone ⟨i, hi, hzero⟩
    rw [hF] at hcause
    cases hcause
  · intro hzeros
    classical
    obtain ⟨hi, hzero⟩ := Nat.find_spec hzeros
    refine ⟨_, antiderivative_error hi hzero fun j hj hj0 => ?_⟩
    exact Nat.find_min hzeros hj ⟨hj.trans hi, hj0⟩

theorem antiderivative_derivative [CharZero R] (f : Univariate R) :
    f.derivative.antiderivative = .ok (f - constant (f.coefficient 0)) := by
  obtain ⟨F, hF⟩ := antiderivative_ok (f := f.derivative) fun i _ =>
    Nat.cast_ne_zero.mpr (Nat.succ_ne_zero i)
  obtain ⟨hconstant, hderivative, -⟩ := spec_of_antiderivative hF
  refine hF.trans (congrArg Except.ok (ext_coefficient fun i => ?_))
  rw [coefficient_sub, constant, coefficient_ofCoefficients]
  cases i with
  | zero => simp [hconstant]
  | succ i =>
    have hi : ((i + 1 : ℕ) : R) ≠ 0 := Nat.cast_ne_zero.mpr (Nat.succ_ne_zero i)
    have hcoefficient := congrArg (coefficient · i) hderivative
    simp only [coefficient_derivative, ← Nat.cast_succ] at hcoefficient
    simpa using mul_left_cancel₀ hi hcoefficient

/-- A polynomial has an antiderivative just if no coefficient is in the way. The one that integration
returns has constant coefficient zero, and is returned unless one of the divisors up to the size of
the polynomial is zero, even if zero is to be divided by it. -/
theorem antiderivative_spec (f : Univariate R) :
    (f.HasAntiderivative ↔ ∀ i : ℕ, ((i + 1 : ℕ) : R) = 0 → f.coefficient i = 0) ∧
    (∀ F, f.antiderivative = .ok F → F.coefficient 0 = 0 ∧ F.derivative = f) ∧
    ((∃ F, f.antiderivative = .ok F) ↔ ∀ i < f.size, ((i + 1 : ℕ) : R) ≠ 0) ∧
    ((∃ cause, f.antiderivative = .error (.arithmetic cause)) ↔
      ∃ i < f.size, ((i + 1 : ℕ) : R) = 0) ∧
    ∀ [CharZero R], f.derivative.antiderivative = .ok (f - constant (f.coefficient 0)) := by
  refine ⟨hasAntiderivative_iff, fun F hF => ?_, ⟨fun ⟨F, hF⟩ => ?_, antiderivative_ok⟩,
    antiderivative_eq_error_iff, antiderivative_derivative f⟩
  · obtain ⟨hconstant, hderivative, -⟩ := spec_of_antiderivative hF
    exact ⟨hconstant, hderivative⟩
  · exact (spec_of_antiderivative hF).2.2

def parabola : Univariate ℚ :=
  ofCoefficients [2, 3, 1]

theorem antiderivative_spec_parabola :
    (parabola.HasAntiderivative ↔
      ∀ i : ℕ, ((i + 1 : ℕ) : ℚ) = 0 → parabola.coefficient i = 0) ∧
    (∀ F, parabola.antiderivative = .ok F → F.coefficient 0 = 0 ∧ F.derivative = parabola) ∧
    ((∃ F, parabola.antiderivative = .ok F) ↔ ∀ i < parabola.size, ((i + 1 : ℕ) : ℚ) ≠ 0) ∧
    ((∃ cause, parabola.antiderivative = .error (.arithmetic cause)) ↔
      ∃ i < parabola.size, ((i + 1 : ℕ) : ℚ) = 0) ∧
    parabola.derivative.antiderivative = .ok (parabola - constant (parabola.coefficient 0)) := by
  obtain ⟨hhas, hok, hok_iff, herror_iff, hderivative⟩ := antiderivative_spec parabola
  exact ⟨hhas, hok, hok_iff, herror_iff, hderivative⟩

/-- Whether integration finds an antiderivative wherever there is one, and fails nowhere else. -/
def FindsAntiderivatives (R : Type) [CommRing R] [DecidableEq R] [Coefficient R] : Prop :=
  ∀ f : Univariate R,
    (f.HasAntiderivative →
      ∃ F, f.antiderivative = .ok F ∧ F.coefficient 0 = 0 ∧ F.derivative = f) ∧
    ((∃ cause, f.antiderivative = .error (.arithmetic cause)) → ¬ f.HasAntiderivative)

/-- Modulo 2 the polynomial `X ^ 2` is the derivative of `X ^ 3`, but the zero in front of it is not
divided by two. -/
theorem not_findsAntiderivatives : ¬ FindsAntiderivatives (Residue 2) := by
  intro hfinds
  have herror := antiderivative_eq_error_iff (R := Residue 2) (f := ofCoefficients [0, 0, 1]).mpr
    ⟨1, by decide, by decide⟩
  refine (hfinds (ofCoefficients [0, 0, 1])).2 herror ⟨ofCoefficients [0, 0, 0, 1], ?_⟩
  decide

end Univariate

end PolyIdeal
