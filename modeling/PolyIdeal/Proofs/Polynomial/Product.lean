import Mathlib.Algebra.MvPolynomial.NoZeroDivisors
import PolyIdeal.Proofs.Polynomial.Form

/-!
# Leading terms of products

Over an integral domain nothing can cancel the product of the leading terms: under every admissible
order it is the leading term of the product. Degrees add up, and over a field the monic multiple of
a product is the product of the monic multiples.
-/

namespace PolyIdeal

open Monomial MonomialOrder

private theorem Monomial.totalDegree_ofExponents {n : ℕ} (e : Fin n →₀ ℕ) :
    totalDegree (ofExponents e) = e.sum fun _ k => k := by
  rw [totalDegree, ofExponents, List.sum_ofFn, Finsupp.sum_fintype _ _ fun _ => rfl]

namespace Polynomial

variable {R : Type} [CommRing R] [DecidableEq R] {n : ℕ}

theorem degree_eq_foldl (p : Polynomial R) :
    p.degree = ((p.terms.map fun t => totalDegree t.1 + 1).foldl max 0 : ℕ) - 1 := by
  cases p with
  | univariate p => exact congrArg (fun k : ℕ => (k : ℤ) - 1) p.foldl_terms_eq_size.symm
  | multinomial p => rfl

private theorem foldl_totalDegree_eq {p : Polynomial R} (hp : p.nvars = n) (hne : p.denote n ≠ 0) :
    (p.terms.map fun t => totalDegree t.1 + 1).foldl max 0 = (p.denote n).totalDegree + 1 := by
  apply le_antisymm
  · rw [foldl_max_le_iff, List.forall_mem_map]
    refine ⟨Nat.zero_le _, fun t ht => ?_⟩
    obtain ⟨e, he⟩ := exists_ofExponents ((length_of_mem_terms ht).trans hp)
    have hmem : e ∈ (p.denote n).support :=
      (mem_monomials_iff hp).mp (he ▸ List.mem_map_of_mem ht)
    rw [he, totalDegree_ofExponents]
    exact Nat.succ_le_succ (MvPolynomial.le_totalDegree hmem)
  · obtain ⟨e, he, hsup⟩ := (p.denote n).support.exists_mem_eq_sup
      (MvPolynomial.support_nonempty.mpr hne) fun s => s.sum fun _ k => k
    obtain ⟨t, ht, hte⟩ := List.mem_map.mp ((mem_monomials_iff hp).mpr he)
    have hle : totalDegree t.1 + 1 ≤ (p.terms.map fun t => totalDegree t.1 + 1).foldl max 0 :=
      (foldl_max_le_iff.mp le_rfl).2 _ (List.mem_map_of_mem ht)
    rw [hte, totalDegree_ofExponents, ← hsup] at hle
    exact hle

private theorem degree_eq_totalDegree {p : Polynomial R} (hp : p.nvars = n) (hne : p.denote n ≠ 0) :
    p.degree = (p.denote n).totalDegree := by
  rw [degree_eq_foldl, foldl_totalDegree_eq hp hne]
  push_cast
  ring

variable [Coefficient R] {order : Order} {f g r : Polynomial R}

/-- What the leading term, the degree and the monic multiple of a product are. -/
structure LeadsAsProduct (order : Order) (f g r : Polynomial R) : Prop where
  ne_zero : r.isZero = false
  leadingMonomial : ∃ u v w, f.leadingMonomial order = .ok u ∧ g.leadingMonomial order = .ok v ∧
    mul? u.toInts v.toInts = .ok w.toInts ∧ r.leadingMonomial order = .ok w
  leadingCoefficient : ∃ a b, f.leadingCoefficient order = .ok a ∧
    g.leadingCoefficient order = .ok b ∧ r.leadingCoefficient order = .ok (a * b)
  degree : r.degree = f.degree + g.degree
  monic : (Coefficient.domain R).isField = true → ∃ f' g' r', f.monic order = .ok f' ∧
    g.monic order = .ok g' ∧ f'.mul g' = .ok r' ∧ r.monic order = .ok r'

private theorem monic_mul [FieldCoefficient R] (h : order.accepts n = true) (hf : f.nvars = n)
    (hg : g.nvars = n) (hf0 : f.denote n ≠ 0) (hg0 : g.denote n ≠ 0) (hr : f.mul g = .ok r) :
    ∃ f' g' r', f.monic order = .ok f' ∧ g.monic order = .ok g' ∧ f'.mul g' = .ok r' ∧
      r.monic order = .ok r' := by
  obtain ⟨s, hs, hsn, hsd⟩ := mul_ok hf hg
  obtain rfl : s = r := Except.ok.inj (hs.symm.trans hr)
  have hunit {q : MvPolynomial (Fin n) R} (hq : q ≠ 0) :
      IsUnit ((order.monomialOrder n h).leadingCoeff q) :=
    FieldCoefficient.isUnit_of_ne_zero ((order.monomialOrder n h).leadingCoeff_ne_zero_iff.mpr hq)
  have hs0 : s.denote n ≠ 0 := hsd ▸ mul_ne_zero hf0 hg0
  obtain ⟨f', a, hf', hfn, hfd, ha⟩ := monic_ok h hf (hunit hf0)
  obtain ⟨g', b, hg', hgn, hgd, hb⟩ := monic_ok h hg (hunit hg0)
  obtain ⟨s', c, hs', hsn', hsd', hc⟩ := monic_ok h hsn (hunit hs0)
  obtain ⟨t, ht, htn, htd⟩ := mul_ok hfn hgn
  -- The inverse of a product is unique, and it is the product of the inverses.
  have hcab : c = a * b := by
    rw [hsd, leadingCoeff_mul] at hc
    apply left_inv_eq_right_inv hc
    rw [mul_comm, mul_mul_mul_comm, ha, hb, one_mul]
  have hst : s' = t := by
    apply eq_of_denote _ hsn' htn
    · rw [hsd', htd, hfd, hgd, hsd, hcab, MvPolynomial.C_mul]
      ring
    · rw [isUnivariate_of_monic hs', isUnivariate_of_combine hs, isUnivariate_of_combine ht,
        isUnivariate_of_monic hf']
  exact ⟨f', g', t, hf', hg', ht, hst ▸ hs'⟩

/-- Without zero divisors the leading term of a product is the product of the leading terms. -/
theorem leadsAsProduct [DomainCoefficient R] (h : order.accepts n = true) (hf : f.nvars = n)
    (hg : g.nvars = n) (hf0 : f.isZero = false) (hg0 : g.isZero = false) :
    ∃ r, f.mul g = .ok r ∧ LeadsAsProduct order f g r := by
  have hfd := (isZero_eq_false_iff hf).mp hf0
  have hgd := (isZero_eq_false_iff hg).mp hg0
  obtain ⟨r, hr, hrn, hrd⟩ := mul_ok hf hg
  have hr0 : r.denote n ≠ 0 := hrd ▸ mul_ne_zero hfd hgd
  refine ⟨r, hr, ?_⟩
  exact {
    ne_zero := (isZero_eq_false_iff hrn).mpr hr0
    leadingMonomial := by
      refine ⟨_, _, _, leadingMonomial_ok h hf hfd, leadingMonomial_ok h hg hgd,
        Order.mul?_ofExponents _ _, ?_⟩
      rw [leadingMonomial_ok h hrn hr0, hrd, degree_mul hfd hgd]
    leadingCoefficient := by
      refine ⟨_, _, leadingCoefficient_ok h hf hfd, leadingCoefficient_ok h hg hgd, ?_⟩
      rw [leadingCoefficient_ok h hrn hr0, hrd, leadingCoeff_mul]
    degree := by
      rw [degree_eq_totalDegree hrn hr0, degree_eq_totalDegree hf hfd,
        degree_eq_totalDegree hg hgd, hrd, MvPolynomial.totalDegree_mul_of_isDomain hfd hgd,
        Nat.cast_add]
    monic := fun hfield => by
      have := DomainCoefficient.fieldCoefficient hfield
      exact monic_mul h hf hg hfd hgd hr }

/-- Of `2 X + Y` and `X - Y` over the rationals, and of `2 X + 3` with itself over the integers. -/
theorem leadsAsProduct_cases :
    (∃ r, (multinomial (.ofTerms 2 Nat.two_pos [([1, 0], 2), ([0, 1], 1)]) : Polynomial ℚ).mul
        (multinomial (.ofTerms 2 Nat.two_pos [([1, 0], 1), ([0, 1], -1)])) = .ok r ∧
      LeadsAsProduct .degRevlex (multinomial (.ofTerms 2 Nat.two_pos [([1, 0], 2), ([0, 1], 1)]))
        (multinomial (.ofTerms 2 Nat.two_pos [([1, 0], 1), ([0, 1], -1)])) r) ∧
    ∃ r, (univariate (.ofCoefficients [3, 2]) : Polynomial ℤ).mul
        (univariate (.ofCoefficients [3, 2])) = .ok r ∧
      LeadsAsProduct .lex (univariate (.ofCoefficients [3, 2]))
        (univariate (.ofCoefficients [3, 2])) r :=
  ⟨leadsAsProduct (n := 2) rfl rfl rfl (by decide +kernel) (by decide +kernel),
    leadsAsProduct (n := 1) rfl rfl rfl (by decide +kernel) (by decide +kernel)⟩

end Polynomial
end PolyIdeal
