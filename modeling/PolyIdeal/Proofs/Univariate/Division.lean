import Mathlib.Algebra.MvPolynomial.NoZeroDivisors
import Mathlib.Tactic.LinearCombination
import PolyIdeal.Proofs.Coefficient.FieldDomain
import PolyIdeal.Proofs.Univariate.Horner
import PolyIdeal.Univariate.Division

/-!
# Division with remainder

Over a field the quotient and the remainder by a polynomial other than zero add up to the dividend,
and the remainder is smaller than the divisor. No other two polynomials do, so that the remainder is
zero just if the divisor divides the dividend, and then the quotient is exact.
-/

namespace PolyIdeal.Univariate

variable {R : Type} [CommRing R] [DecidableEq R]

omit [DecidableEq R] in
theorem horner_injective {p q : Univariate R}
    (h : horner p.coefficients = horner q.coefficients) : p = q := by
  apply ext_coefficient
  intro i
  rw [coefficient_eq_coeff, coefficient_eq_coeff, h]

omit [DecidableEq R] in
theorem horner_eq_zero_iff {p : Univariate R} : horner p.coefficients = 0 ↔ p.isZero = true := by
  refine ⟨fun h => ?_, horner_eq_zero⟩
  rw [horner_injective (q := 0) h]
  rfl

section Leading

variable {g : Univariate R} {c lc : R} (hlc : g.leadingCoefficient? = some lc) (hc : c * lc = 1)
include hlc hc

private theorem size_sub_mulTerm_le (hg : 0 < g.size) {f : Univariate R} {k : ℕ}
    (hf : f.size ≤ k + 1 + (g.size - 1)) :
    (f - g.mulTerm k (f.coefficient (k + (g.size - 1)) * c)).size ≤ k + (g.size - 1) := by
  apply size_le_iff.mpr
  intro i hi
  rw [coefficient_sub, coefficient_mulTerm, if_pos (Nat.le_trans (Nat.le_add_right _ _) hi)]
  rcases Nat.eq_or_lt_of_le hi with rfl | hlt
  · rw [Nat.add_sub_cancel_left, coefficient_size_sub_one hlc, mul_assoc, hc, mul_one, sub_self]
  · have hfi : f.coefficient i = 0 := size_le_iff.mp hf i (by omega)
    have hgi : g.coefficient (i - k) = 0 := size_le_iff.mp (Nat.le_refl g.size) _ (by omega)
    rw [hfi, hgi, mul_zero, sub_zero]

private theorem divideBelow_spec [Coefficient R] (hg : 0 < g.size) (k : ℕ) (f : Univariate R)
    (hf : f.size ≤ k + (g.size - 1)) :
    (divideBelow g c k f).1.length = k ∧ (divideBelow g c k f).2.size ≤ g.size - 1 ∧
      horner f.coefficients = horner (divideBelow g c k f).1 * horner g.coefficients +
        horner (divideBelow g c k f).2.coefficients := by
  induction k generalizing f with
  | zero => simpa [divideBelow] using hf
  | succ k ih =>
    have hsize := size_sub_mulTerm_le hlc hc hg hf
    have hrest := horner_sub f (g.mulTerm k (f.coefficient (k + (g.size - 1)) * c))
    rw [horner_mulTerm] at hrest
    simp only [divideBelow]
    generalize f.coefficient (k + (g.size - 1)) * c = q at hsize hrest ⊢
    split
    · rename_i hzero
      rw [horner_eq_zero hzero] at hrest
      refine ⟨by simp, ?_, ?_⟩
      · have hempty : (f - g.mulTerm k q).size = 0 := by simpa [size, isZero] using hzero
        exact Nat.le_trans (Nat.le_of_eq hempty) (Nat.zero_le _)
      · rw [horner_eq_zero hzero, horner_append, horner_replicate_zero, horner_cons, horner_nil,
          List.length_replicate]
        linear_combination -hrest
    · obtain ⟨hlength, hremainder, hsum⟩ := ih _ hsize
      refine ⟨by simp [hlength], hremainder, ?_⟩
      rw [horner_append, horner_cons, horner_nil, hlength]
      linear_combination hsum - hrest

end Leading

section Multiples

omit [DecidableEq R]

private theorem degreeOf_horner_lt_iff {p : Univariate R} {k : ℕ} (hk : 0 < k) :
    (horner p.coefficients).degreeOf 0 < k ↔ p.size ≤ k := by
  rw [MvPolynomial.degreeOf_lt_iff hk, size_le_iff]
  constructor
  · intro h i hi
    rw [coefficient_eq_coeff]
    by_contra hne
    have hlt := h _ (MvPolynomial.mem_support_iff.mpr hne)
    rw [Finsupp.single_eq_same] at hlt
    exact Nat.not_lt.mpr hi hlt
  · intro h e he
    by_contra hlt
    rw [MvPolynomial.mem_support_iff, coeff_horner] at he
    exact he (h _ (Nat.le_of_not_lt hlt))

private theorem isZero_of_dvd [IsDomain R] {p q : Univariate R} (hsize : p.size < q.size)
    (hdvd : horner q.coefficients ∣ horner p.coefficients) : p.isZero = true := by
  by_contra hp
  obtain ⟨w, hw⟩ := hdvd
  have hne : horner p.coefficients ≠ 0 := fun h => hp (horner_eq_zero_iff.mp h)
  obtain ⟨-, -, -, hpos⟩ := exists_leadingCoefficient (Bool.eq_false_iff.mpr hp)
  have hdegree := (degreeOf_horner_lt_iff hpos).mpr (Nat.le_refl p.size)
  rw [hw] at hne hdegree
  rw [MvPolynomial.degreeOf_mul_eq (left_ne_zero_of_mul hne) (right_ne_zero_of_mul hne)] at hdegree
  have hq := (degreeOf_horner_lt_iff hpos).mp (Nat.lt_of_le_of_lt (Nat.le_add_right _ _) hdegree)
  omega

end Multiples

private theorem size_sub_lt {p q : Univariate R} {k : ℕ} (hp : p.size < k) (hq : q.size < k) :
    (p - q).size < k := by
  have hle : (p - q).size ≤ k - 1 := by
    apply size_le_iff.mpr
    intro i hi
    rw [coefficient_sub, size_le_iff.mp (Nat.le_refl p.size) i (by omega),
      size_le_iff.mp (Nat.le_refl q.size) i (by omega), sub_self]
  omega

theorem divMod_ok [Coefficient R] [FieldCoefficient R] (f : Univariate R) {g : Univariate R}
    (hg : g.isZero = false) :
    ∃ q r, f.divMod g = .ok (q, r) ∧ r.size < g.size ∧
      horner f.coefficients =
        horner q.coefficients * horner g.coefficients + horner r.coefficients := by
  obtain ⟨lc, hlc, hne, hpos⟩ := exists_leadingCoefficient hg
  obtain ⟨c, hinverse, hc⟩ :=
    Coefficient.inverse_of_isUnit (FieldCoefficient.isUnit_of_ne_zero hne)
  rw [divMod]
  simp only [hlc, FieldCoefficient.isField_domain, if_true]
  by_cases hlt : f.size < g.size
  · refine ⟨0, f, if_pos hlt, hlt, ?_⟩
    show horner f.coefficients = horner [] * _ + _
    rw [horner_nil, zero_mul, zero_add]
  · have hspec := divideBelow_spec hlc hc hpos (f.size - g.size + 1) f (by omega)
    generalize hdivide : divideBelow g c (f.size - g.size + 1) f = divided at hspec
    obtain ⟨-, hremainder, hsum⟩ := hspec
    refine ⟨ofCoefficients divided.1, divided.2, ?_, ?_, ?_⟩
    · rw [if_neg hlt, hinverse, ← hdivide]
      rfl
    · omega
    · rw [horner_ofCoefficients, hsum]

section Uniqueness

variable {f g q q' r r' : Univariate R} (hg : g.isZero = false)
include hg

private theorem eq_of_mul_add_eq [IsDomain R] (hr : r.size < g.size) (hr' : r'.size < g.size)
    (h : q * g + r = q' * g + r') : q = q' ∧ r = r' := by
  have hne : horner g.coefficients ≠ 0 := by
    intro hzero
    rw [horner_eq_zero_iff.mp hzero] at hg
    cases hg
  have hsum : horner q.coefficients * horner g.coefficients + horner r.coefficients =
      horner q'.coefficients * horner g.coefficients + horner r'.coefficients := by
    rw [← horner_mul, ← horner_mul, ← horner_add, ← horner_add, h]
  have hmultiple : horner (r - r').coefficients =
      horner g.coefficients * (horner q'.coefficients - horner q.coefficients) := by
    rw [horner_sub]
    linear_combination hsum
  have hzero := horner_eq_zero (isZero_of_dvd (size_sub_lt hr hr') (Dvd.intro _ hmultiple.symm))
  rw [horner_sub, sub_eq_zero] at hzero
  rw [hzero, add_left_inj] at hsum
  exact ⟨horner_injective (mul_right_cancel₀ hne hsum), horner_injective hzero⟩

variable [Coefficient R] [FieldCoefficient R]

theorem divMod_eq_ok_iff : f.divMod g = .ok (q, r) ↔ f = q * g + r ∧ r.size < g.size := by
  obtain ⟨q', r', hdivide, hsize, hsum⟩ := divMod_ok f hg
  have hf : f = q' * g + r' := by
    apply horner_injective
    rw [horner_add, horner_mul, hsum]
  rw [hdivide, Except.ok.injEq, Prod.mk.injEq]
  constructor
  · rintro ⟨rfl, rfl⟩
    exact ⟨hf, hsize⟩
  · rintro ⟨hf', hsize'⟩
    exact eq_of_mul_add_eq hg hsize hsize' (hf.symm.trans hf')

theorem divMod_mul (q : Univariate R) : (q * g).divMod g = .ok (q, 0) := by
  obtain ⟨-, -, -, hpos⟩ := exists_leadingCoefficient hg
  refine (divMod_eq_ok_iff hg).mpr ⟨?_, hpos⟩
  apply horner_injective
  rw [horner_add]
  exact (add_zero _).symm

theorem divMod_of_not_multiple (h : ∀ q, q * g ≠ f) :
    ∃ q r, f.divMod g = .ok (q, r) ∧ r.isZero = false := by
  obtain ⟨q, r, hdivide, -, hsum⟩ := divMod_ok f hg
  refine ⟨q, r, hdivide, ?_⟩
  rw [← Bool.not_eq_true]
  intro hr
  apply h q
  apply horner_injective
  rw [horner_mul, hsum, horner_eq_zero hr, add_zero]

private theorem exactQuotient_mul (q : Univariate R) : (q * g).exactQuotient g = .ok q := by
  rw [exactQuotient, divMod_mul hg]
  rfl

private theorem exactQuotient_of_not_multiple (h : ∀ q, q * g ≠ f) :
    f.exactQuotient g = .error (.arithmetic (.inexactQuotient f.text g.text)) := by
  obtain ⟨q, r, hdivide, hr⟩ := divMod_of_not_multiple hg h
  rw [exactQuotient, hdivide]
  simp only [bind, Except.bind, hr]
  rfl

private theorem exactQuotient_eq_ok_iff : f.exactQuotient g = .ok q ↔ q * g = f := by
  constructor
  · intro h
    by_cases hmultiple : ∃ q', q' * g = f
    · obtain ⟨q', rfl⟩ := hmultiple
      rw [exactQuotient_mul hg] at h
      rw [Except.ok.inj h]
    · rw [exactQuotient_of_not_multiple hg (not_exists.mp hmultiple)] at h
      cases h
  · rintro rfl
    exact exactQuotient_mul hg q

end Uniqueness

omit [DecidableEq R] in
private theorem degree_lt_degree_iff {p q : Univariate R} :
    p.degree < q.degree ↔ p.size < q.size := by
  unfold degree
  omega

open FieldDomain in
/-- Euclidean division over a field: there is one quotient with one remainder smaller than the
divisor, and without a remainder the division is exact. -/
theorem divMod_spec {K : Domain} [FieldDomain K] (f : Univariate K.Elem) {g : Univariate K.Elem}
    (hg : g.isZero = false) :
    (∃ q r, f.divMod g = .ok (q, r) ∧ f = q * g + r ∧ r.degree < g.degree) ∧
    (∀ q r : Univariate K.Elem, r.degree < g.degree → (q * g + r).divMod g = .ok (q, r)) ∧
    (∀ q, f.exactQuotient g = .ok q ↔ q * g = f) ∧
    ((∃ cause, f.exactQuotient g = .error (.arithmetic cause)) ↔ ∀ q, q * g ≠ f) := by
  refine ⟨?_, ?_, ?_, ?_⟩
  · obtain ⟨q, r, hdivide, -⟩ := divMod_ok f hg
    obtain ⟨hf, hsize⟩ := (divMod_eq_ok_iff hg).mp hdivide
    exact ⟨q, r, hdivide, hf, degree_lt_degree_iff.mpr hsize⟩
  · intro q r hr
    exact (divMod_eq_ok_iff hg).mpr ⟨rfl, degree_lt_degree_iff.mp hr⟩
  · exact fun q => exactQuotient_eq_ok_iff hg
  · constructor
    · rintro ⟨cause, hcause⟩ q hq
      rw [(exactQuotient_eq_ok_iff hg).mpr hq] at hcause
      cases hcause
    · intro h
      exact ⟨_, exactQuotient_of_not_multiple hg h⟩

theorem divMod_spec_rationals :
    (∃ q r : Univariate ℚ, (ofCoefficients [-1, 0, 0, 1]).divMod (ofCoefficients [2, 0, 2]) =
        .ok (q, r) ∧
      ofCoefficients [-1, 0, 0, 1] = q * ofCoefficients [2, 0, 2] + r ∧
      r.degree < (ofCoefficients [(2 : ℚ), 0, 2]).degree) ∧
    (∀ q r : Univariate ℚ, r.degree < (ofCoefficients [(2 : ℚ), 0, 2]).degree →
      (q * ofCoefficients [2, 0, 2] + r).divMod (ofCoefficients [2, 0, 2]) = .ok (q, r)) ∧
    (∀ q : Univariate ℚ, (ofCoefficients [-1, 0, 0, 1]).exactQuotient (ofCoefficients [2, 0, 2]) =
      .ok q ↔ q * ofCoefficients [2, 0, 2] = ofCoefficients [-1, 0, 0, 1]) ∧
    ((∃ cause, (ofCoefficients [(-1 : ℚ), 0, 0, 1]).exactQuotient (ofCoefficients [2, 0, 2]) =
      .error (.arithmetic cause)) ↔
      ∀ q : Univariate ℚ, q * ofCoefficients [2, 0, 2] ≠ ofCoefficients [-1, 0, 0, 1]) :=
  divMod_spec (K := .rationals) (ofCoefficients [(-1 : ℚ), 0, 0, 1])
    (g := ofCoefficients [(2 : ℚ), 0, 2]) rfl

end PolyIdeal.Univariate
