import PolyIdeal.Basis.SPolynomial
import PolyIdeal.Proofs.Ideal.NormalForm
import PolyIdeal.Proofs.Polynomial.Leading

/-!
# S-polynomials

The s-polynomial of two polynomials with invertible leading coefficients is there, and is a multiple
of the one in which leading coefficients are exchanged instead of inverted. Without an inverse there
is none.
-/

namespace PolyIdeal

open Monomial MonomialOrder PolyIdeal.Polynomial

variable {R : Type} [CommRing R] [DecidableEq R] [Coefficient R] {n : ℕ} {order : Order}

theorem mem_criticalPairs {i j n : ℕ} : (i, j) ∈ criticalPairs n ↔ i < j ∧ j < n := by
  simp only [criticalPairs, List.mem_flatMap, List.mem_range, List.mem_map, Prod.mk.injEq,
    List.mem_range'_1]
  constructor
  · rintro ⟨i, hi, j, hj, rfl, rfl⟩
    omega
  · rintro ⟨hij, hj⟩
    exact ⟨i, by omega, j, by omega, rfl, rfl⟩

theorem sPolynomial_tolerance (f g : Polynomial R) (order : Order) (tolerance : Option Tolerance) :
    sPolynomial f g order tolerance = sPolynomial f g order none >>= Polynomial.chop tolerance := by
  simp only [sPolynomial, bind_assoc]
  rfl

@[simp] theorem shifts_ofExponents (d e : Fin n →₀ ℕ) :
    shifts (ofExponents (d ⊔ e)) (ofExponents d) (ofExponents e) =
      .ok (ofExponents (d ⊔ e - d), ofExponents (d ⊔ e - e)) := by
  simp only [shifts, div?_ofExponents, le_sup_left, le_sup_right, if_true, mul_ofExponents,
    tsub_add_cancel_of_le]

variable [ExactCoefficient R]

private theorem raisedBy_ok (h : order.accepts n = true) {f : Polynomial R} (hf : f.nvars = n)
    (hunit : IsUnit ((order.monomialOrder n h).leadingCoeff (f.denote n))) (e : Fin n →₀ ℕ) :
    ∃ p c, f.raisedBy (ofExponents e) ((order.monomialOrder n h).leadingCoeff (f.denote n)) =
        .ok p ∧ p.nvars = n ∧
      p.denote n = MvPolynomial.monomial e c * f.denote n ∧
      c * (order.monomialOrder n h).leadingCoeff (f.denote n) = 1 := by
  obtain ⟨c, hinv, hc⟩ := Coefficient.inverse_of_isUnit hunit
  obtain ⟨p, hp, hpn, hpd⟩ := mulTerm_ok hf e c
  refine ⟨p, c, ?_, hpn, hpd, hc⟩
  rw [raisedBy, hinv]
  exact hp

private theorem raisedBy_fails {f : Polynomial R} {lc : R} (hunit : ¬ IsUnit lc) :
    ∃ cause, ∀ shift, f.raisedBy shift lc = .error (.arithmetic cause) := by
  obtain ⟨cause, hinv⟩ := Coefficient.inverse_of_not_isUnit hunit
  refine ⟨cause, fun shift => ?_⟩
  rw [raisedBy, hinv]
  rfl

section Pair

variable (h : order.accepts n = true) {f g : Polynomial R} (hf : f.nvars = n) (hg : g.nvars = n)
include hf hg

/-- The s-polynomial is the one in which leading coefficients are exchanged, divided by both. -/
theorem sPolynomial_normalized
    (hfu : IsUnit ((order.monomialOrder n h).leadingCoeff (f.denote n)))
    (hgu : IsUnit ((order.monomialOrder n h).leadingCoeff (g.denote n))) :
    ∃ (s : Polynomial R) (c : R), sPolynomial f g order none = .ok s ∧ s.nvars = n ∧
      c * ((order.monomialOrder n h).leadingCoeff (f.denote n) *
        (order.monomialOrder n h).leadingCoeff (g.denote n)) = 1 ∧
      s.denote n = c • (order.monomialOrder n h).sPolynomial (f.denote n) (g.denote n) := by
  have hf0 := (order.monomialOrder n h).leadingCoeff_ne_zero_iff.mp hfu.ne_zero
  have hg0 := (order.monomialOrder n h).leadingCoeff_ne_zero_iff.mp hgu.ne_zero
  obtain ⟨p, c, hp, hpn, hpd, hc⟩ := raisedBy_ok h hf hfu
    ((order.monomialOrder n h).degree (f.denote n) ⊔ (order.monomialOrder n h).degree (g.denote n) -
      (order.monomialOrder n h).degree (f.denote n))
  obtain ⟨q, c', hq, hqn, hqd, hc'⟩ := raisedBy_ok h hg hgu
    ((order.monomialOrder n h).degree (f.denote n) ⊔ (order.monomialOrder n h).degree (g.denote n) -
      (order.monomialOrder n h).degree (g.denote n))
  obtain ⟨s, hs, hsn, hsd⟩ := sub_ok hpn hqn
  refine ⟨s, c * c', ?_, hsn, ?_, ?_⟩
  · rw [sPolynomial, leadingTerm_ok h hf hf0, leadingTerm_ok h hg hg0]
    simp only [bind, Except.bind, checkArity, length_toInts, length_ofExponents, if_true,
      lcm_ofExponents, shifts_ofExponents, hp, hq, hs]
    rfl
  · rw [mul_mul_mul_comm, hc, hc', mul_one]
  · rw [hsd, hpd, hqd, sPolynomial_def, smul_sub, ← smul_mul_assoc, ← smul_mul_assoc,
      MvPolynomial.smul_monomial, MvPolynomial.smul_monomial, smul_eq_mul, smul_eq_mul]
    have hcg : c * c' * (order.monomialOrder n h).leadingCoeff (g.denote n) = c := by
      rw [mul_assoc, hc', mul_one]
    have hcf : c * c' * (order.monomialOrder n h).leadingCoeff (f.denote n) = c' := by
      rw [mul_comm c, mul_assoc, hc, mul_one]
    rw [hcg, hcf]

theorem sPolynomial_ok (hfu : IsUnit ((order.monomialOrder n h).leadingCoeff (f.denote n)))
    (hgu : IsUnit ((order.monomialOrder n h).leadingCoeff (g.denote n))) :
    ∃ (s : Polynomial R) (c : R), sPolynomial f g order none = .ok s ∧ s.nvars = n ∧ IsUnit c ∧
      s.denote n = c • (order.monomialOrder n h).sPolynomial (f.denote n) (g.denote n) := by
  obtain ⟨s, c, hs, hsn, hc, hsd⟩ := sPolynomial_normalized h hf hg hfu hgu
  exact ⟨s, c, hs, hsn, IsUnit.of_mul_eq_one _ hc, hsd⟩

/-- A leading coefficient that is not invertible is refused. -/
theorem sPolynomial_fails (hf0 : f.denote n ≠ 0) (hg0 : g.denote n ≠ 0)
    (hunit : ¬ (IsUnit ((order.monomialOrder n h).leadingCoeff (f.denote n)) ∧
      IsUnit ((order.monomialOrder n h).leadingCoeff (g.denote n)))) :
    ∃ cause, sPolynomial f g order none = .error (.arithmetic cause) := by
  rw [sPolynomial, leadingTerm_ok h hf hf0, leadingTerm_ok h hg hg0]
  simp only [bind, Except.bind, checkArity, length_toInts, length_ofExponents, if_true,
    lcm_ofExponents, shifts_ofExponents]
  by_cases hfu : IsUnit ((order.monomialOrder n h).leadingCoeff (f.denote n))
  · obtain ⟨p, c, hp, -, -, -⟩ := raisedBy_ok h hf hfu
      ((order.monomialOrder n h).degree (f.denote n) ⊔
        (order.monomialOrder n h).degree (g.denote n) -
          (order.monomialOrder n h).degree (f.denote n))
    obtain ⟨cause, hg'⟩ := raisedBy_fails (f := g) fun hgu => hunit ⟨hfu, hgu⟩
    exact ⟨cause, by simp only [hp, hg']⟩
  · obtain ⟨cause, hf'⟩ := raisedBy_fails (f := f) hfu
    exact ⟨cause, by simp only [hf']⟩

end Pair

end PolyIdeal
