import PolyIdeal.Proofs.Reduction.FirstDivisor
import PolyIdeal.Proofs.Reduction.Misfit
import PolyIdeal.Proofs.SameOutcome

/-!
# Linearity of normal forms

Over a field the normal form of a combination is the combination of the normal forms, modulo any
list of polynomials. Where there is no Groebner basis the normal forms of a coset differ, but those
that are found always differ from the polynomials by multiples of first divisors.
-/

namespace PolyIdeal

open Monomial MonomialOrder PolyIdeal.Polynomial Reducer

variable {R : Type} [CommRing R] [DecidableEq R]

/-- The combination `a * f + b * g`. -/
def Polynomial.combination (a b : R) (f g : Polynomial R) : Except Failure (Polynomial R) :=
  (f.scale a).add (g.scale b)

variable {n : ℕ} {f g : Polynomial R}

private theorem combination_ok (a b : R) (hf : f.nvars = n) (hg : g.nvars = n) :
    ∃ s, combination a b f g = .ok s ∧ s.nvars = n ∧
      s.denote n = a • f.denote n + b • g.denote n := by
  obtain ⟨hfn, hfd⟩ := scale_spec hf a
  obtain ⟨hgn, hgd⟩ := scale_spec hg b
  obtain ⟨s, hs, hsn, hsd⟩ := add_ok hfn hgn
  refine ⟨s, hs, hsn, ?_⟩
  rw [hsd, hfd, hgd, MvPolynomial.smul_eq_C_mul, MvPolynomial.smul_eq_C_mul]

variable [Coefficient R] {order : Order} {basis : List (Polynomial R)}

/-- The normal form of a combination. -/
def reduceCombination (a b : R) (f g : Polynomial R) (basis : List (Polynomial R))
    (order : Order) : Except Failure (Polynomial R) := do
  (reduce (← combination a b f g) basis order none).result

/-- The combination of the normal forms, of which both are needed. -/
def combineReduced (a b : R) (f g : Polynomial R) (basis : List (Polynomial R))
    (order : Order) : Except Failure (Polynomial R) := do
  combination a b (← (reduce f basis order none).result) (← (reduce g basis order none).result)

section Fits

variable [FieldCoefficient R] (h : order.accepts n = true) (hbasis : Proper n basis)
include h hbasis

private theorem reduce_first (hf : f.nvars = n) :
    ∃ f', (reduce f basis order none).result = .ok f' ∧ f'.nvars = n ∧
      f.denote n - f'.denote n ∈
        firstSpan (order.monomialOrder n h) (basis.map (denote n)) ∧
      ∀ e ∈ (f'.denote n).support, ∀ G ∈ basis.map (denote n),
        ¬ (order.monomialOrder n h).degree G ≤ e := by
  obtain ⟨r, hok, hr⟩ := ofBasis_ok h hbasis
  rw [reduce, hok]
  exact normalForm_first h hr hf

private theorem reduceCombination_agrees (a b : R) (hf : f.nvars = n) (hg : g.nvars = n) :
    ∃ t' t, reduceCombination a b f g basis order = .ok t' ∧
      combineReduced a b f g basis order = .ok t ∧ t'.agrees t = true := by
  obtain ⟨s, hs, hsn, hsd⟩ := combination_ok a b hf hg
  obtain ⟨t', ht', htn', hmem', hirr'⟩ := reduce_first h hbasis hsn
  obtain ⟨f', hf', hfn', hfmem, hfirr⟩ := reduce_first h hbasis hf
  obtain ⟨g', hg', hgn', hgmem, hgirr⟩ := reduce_first h hbasis hg
  obtain ⟨t, ht, htn, htd⟩ := combination_ok a b hfn' hgn'
  refine ⟨t', t, ?_, ?_, (agrees_iff htn' htn).mpr ?_⟩
  · rw [reduceCombination, hs]
    exact ht'
  · rw [combineReduced, hf', hg']
    exact ht
  -- Both differ from the combination by multiples of first divisors, and no monomial has a divisor.
  have hne : ∀ G ∈ basis.map (denote n), G ≠ 0 := by
    intro G hG
    obtain ⟨p, hp, rfl⟩ := List.mem_map.mp hG
    exact hbasis.denote_ne_zero p hp
  refine eq_of_sub_mem_firstSpan hne hmem' ?_ hirr' fun e he => ?_
  · have hsub : s.denote n - t.denote n =
        a • (f.denote n - f'.denote n) + b • (g.denote n - g'.denote n) := by
      rw [hsd, htd, smul_sub, smul_sub]
      ring
    rw [hsub]
    exact Submodule.add_mem _ (Submodule.smul_mem _ a hfmem) (Submodule.smul_mem _ b hgmem)
  · have hcoeff : (t.denote n).coeff e ≠ 0 := MvPolynomial.mem_support_iff.mp he
    rw [htd, MvPolynomial.coeff_add, MvPolynomial.coeff_smul, MvPolynomial.coeff_smul] at hcoeff
    by_cases hzero : (f'.denote n).coeff e = 0
    · rw [hzero, smul_zero, zero_add] at hcoeff
      exact hgirr e (MvPolynomial.mem_support_iff.mpr (right_ne_zero_of_smul hcoeff))
    · exact hfirr e (MvPolynomial.mem_support_iff.mpr hzero)

end Fits

variable [FieldCoefficient R]

/-- Whatever the order is, the normal form of a combination is the combination of the normal forms
if there is one, and there is one under every order of the variables. -/
theorem reduce_linear (hn : ∀ p ∈ basis, p.nvars = n) (hzero : ∀ p ∈ basis, p.isZero = false)
    (hf : f.nvars = n) (hg : g.nvars = n) (a b : R) :
    (order.accepts n = true → ∃ t, combineReduced a b f g basis order = .ok t) ∧
    ∀ t, combineReduced a b f g basis order = .ok t →
      ∃ t', reduceCombination a b f g basis order = .ok t' ∧ t'.agrees t = true := by
  have hbasis := Proper.of_isZero hn hzero
  constructor
  · intro h
    obtain ⟨_, t, -, ht, -⟩ := reduceCombination_agrees h hbasis a b hf hg
    exact ⟨t, ht⟩
  · intro t ht
    by_cases h : order.accepts n = true
    · obtain ⟨t', t'', ht', ht'', hagrees⟩ := reduceCombination_agrees h hbasis a b hf hg
      obtain rfl := Except.ok.inj (ht''.symm.trans ht)
      exact ⟨t', ht', hagrees⟩
    · obtain ⟨f', hf', hrest⟩ := exists_of_bind_ok ht
      obtain ⟨g', hg', hcombined⟩ := exists_of_bind_ok hrest
      obtain ⟨rfl, hfzero⟩ := isZero_of_reduce_misfit h hn hf hf'
      obtain ⟨-, hgzero⟩ := isZero_of_reduce_misfit h hn hg hg'
      -- Zeros are their own normal forms.
      rw [reduce_nil_of_isZero hfzero] at hf'
      rw [reduce_nil_of_isZero hgzero] at hg'
      obtain rfl := Except.ok.inj hf'
      obtain rfl := Except.ok.inj hg'
      obtain ⟨s, hs, hsn, hsd⟩ := combination_ok a b hf hg
      obtain rfl := Except.ok.inj (hs.symm.trans hcombined)
      have hszero : s.isZero = true := by
        rw [isZero_iff hsn, hsd, (isZero_iff hf).mp hfzero, (isZero_iff hg).mp hgzero,
          smul_zero, smul_zero, add_zero]
      refine ⟨s, ?_, (agrees_iff hsn hsn).mpr rfl⟩
      rw [reduceCombination, hs]
      exact reduce_nil_of_isZero hszero

/-- The polynomials `2 * X ^ 2 + 1` and `X ^ 2` over the rationals, which are no Groebner basis. -/
def parabolas : List (Polynomial ℚ) :=
  [.univariate (.ofCoefficients [1, 0, 2]), .univariate (.ofCoefficients [0, 0, 1])]

theorem reduce_linear_parabolas :
    (Order.lex.accepts 1 = true → ∃ t, combineReduced 2 (-1)
      (.univariate (.ofCoefficients [0, 0, 1, 1])) (.univariate (.ofCoefficients [0, 0, 2]))
      parabolas .lex = .ok t) ∧
    ∀ t, combineReduced 2 (-1) (.univariate (.ofCoefficients [0, 0, 1, 1]))
        (.univariate (.ofCoefficients [0, 0, 2])) parabolas .lex = .ok t →
      ∃ t', reduceCombination 2 (-1) (.univariate (.ofCoefficients [0, 0, 1, 1]))
        (.univariate (.ofCoefficients [0, 0, 2])) parabolas .lex = .ok t' ∧
        t'.agrees t = true := by
  apply reduce_linear (n := 1)
  · intro p hp
    rcases List.mem_pair.mp hp with rfl | rfl <;> rfl
  · intro p hp
    rcases List.mem_pair.mp hp with rfl | rfl <;> rfl
  · rfl
  · rfl

/-- A combination that cancels is reduced under every order, its parts only under an order of their
variables. -/
theorem not_reduce_linear_misfit : ¬ ∀ (order : Order) (basis : List (Polynomial ℚ))
    (f g : Polynomial ℚ) (a b : ℚ), (∀ p ∈ basis, p.nvars = 1) →
      (∀ p ∈ basis, p.isZero = false) → f.nvars = 1 → g.nvars = 1 →
      SameOutcome (fun t' t => t'.agrees t = true) (reduceCombination a b f g basis order)
        (combineReduced a b f g basis order) := by
  intro hall
  have hsame := hall (.permuted ⟨[1, 0], by decide⟩) []
    (.univariate (.ofCoefficients [0, 1])) (.univariate (.ofCoefficients [0, 1])) 1 (-1)
    (by simp) (by simp) rfl rfl
  obtain ⟨s, hs, hsn, hsd⟩ := combination_ok (n := 1) (1 : ℚ) (-1)
    (f := .univariate (.ofCoefficients [0, 1])) (g := .univariate (.ofCoefficients [0, 1])) rfl rfl
  have hszero : s.isZero = true := by
    rw [isZero_iff hsn, hsd]
    simp
  rw [reduceCombination, hs] at hsame
  change SameOutcome _ (reduce s [] _ none).result _ at hsame
  rw [reduce_nil_of_isZero hszero] at hsame
  obtain ⟨t, ht, -⟩ := hsame.exists_of_ok
  obtain ⟨f', hf', -⟩ := exists_of_bind_ok ht
  have hzero := (isZero_of_reduce_misfit (by decide) (by simp) (n := 1) rfl hf').2
  cases hzero

end PolyIdeal
