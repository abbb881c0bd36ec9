import PolyIdeal.Basis.Buchberger
import PolyIdeal.Proofs.Basis.SPolynomial
import PolyIdeal.Proofs.Reduction.NormalForm

/-!
# Joining a pair

A pair is refused if one of its leading coefficients has no inverse, unless its leading monomials are
coprime and it is passed over. Otherwise it joins already, or the remainder of its s-polynomial is a
member of the ideal with a new leading term, with which the pair joins.
-/

namespace PolyIdeal.Buchberger

open Monomial MonomialOrder PolyIdeal.Polynomial Reducer

variable {R : Type} [CommRing R] [DecidableEq R] [Coefficient R] {n : ℕ} {order : Order}
  (h : order.accepts n = true) {basis : List (Polynomial R)} (hbasis : Proper n basis)
  {p q : Polynomial R} (hp : p ∈ basis) (hq : q ∈ basis) {config : Config}
  (htol : config.tolerance = none)

/-- Both leading coefficients have an inverse. -/
def Invertible (p q : Polynomial R) : Prop :=
  IsUnit ((order.monomialOrder n h).leadingCoeff (p.denote n)) ∧
    IsUnit ((order.monomialOrder n h).leadingCoeff (q.denote n))

/-- What joining the pair of `p` and `q` can give. -/
inductive FindsJoin (config : Config) (basis : List (Polynomial R)) (p q : Polynomial R) :
    Except Failure (Option (Element R)) → Prop
  | passedOver (hcriterion : config.productCriterion = true)
      (hcoprime : LeadCoprime (order.monomialOrder n h) (p.denote n) (q.denote n)) :
    FindsJoin config basis p q (.ok none)
  | refused {cause : ArithmeticCause} (hunit : ¬ Invertible h p q) :
    FindsJoin config basis p q (.error (.arithmetic cause))
  | joins (hunit : Invertible h p q)
      (hjoins : Joins (order.monomialOrder n h) (denotations n basis) (p.denote n) (q.denote n)) :
    FindsJoin config basis p q (.ok none)
  | remainder {r : Polynomial R} (hunit : Invertible h p q) (hrn : r.nvars = n)
      (hr0 : r.denote n ≠ 0) (hmem : r.denote n ∈ Ideal.span (denotations n basis))
      (hirr : Irreducible (order.monomialOrder n h) (denotations n basis) (r.denote n))
      (hjoins : Joins (order.monomialOrder n h) (denotations n (basis ++ [r])) (p.denote n)
        (q.denote n)) :
    FindsJoin config basis p q (.ok (some (element order r)))

theorem result_join_passed (hcriterion : config.productCriterion = true)
    (hcoprime : coprime (element order p) (element order q) = true) (elements : List (Element R)) :
    (join order config elements (element order p) (element order q)).result = .ok none := by
  rw [join, hcriterion, hcoprime]
  rfl

include htol in
theorem result_join_reduced {elements : List (Element R)} {reducer : Reducer R}
    {s r : Polynomial R}
    (hpass : (config.productCriterion && coprime (element order p) (element order q)) = false)
    (hreducer : ofElements order none elements = .ok reducer)
    (hs : sPolynomial p q order none = .ok s) (hr : (reducer.normalForm s).result = .ok r) :
    (join order config elements (element order p) (element order q)).result =
      .ok (if r.isZero then none else some (element order r)) := by
  rw [join, if_neg (by rw [hpass]; exact Bool.false_ne_true), htol,
    Traced.result_lift_bind hreducer]
  simp only [element]
  rw [Traced.result_lift_bind hs, Traced.result_bind hr, Traced.result_lift_bind (chop_none r)]
  split <;> rfl

include hbasis hp hq in
omit [Coefficient R] in
private theorem leadCoprime_of_coprime
    (hcoprime : coprime (element order p) (element order q) = true) :
    LeadCoprime (order.monomialOrder n h) (p.denote n) (q.denote n) := by
  have hp' := divisor_ok h (hbasis.nvars_eq p hp) (hbasis.denote_ne_zero p hp)
  have hq' := divisor_ok h (hbasis.nvars_eq q hq) (hbasis.denote_ne_zero q hq)
  simp only [coprime, element, hp', hq'] at hcoprime
  exact sup_eq_add_of_coprime hcoprime

include hbasis hp hq htol in
theorem join_spec [ExactCoefficient R] :
    FindsJoin h config basis p q
      (join order config (basis.map (element order)) (element order p) (element order q)).result
    := by
  by_cases hpass : (config.productCriterion && coprime (element order p) (element order q)) = true
  · obtain ⟨hcriterion, hcoprime⟩ := Bool.and_eq_true_iff.mp hpass
    rw [result_join_passed hcriterion hcoprime]
    exact .passedOver hcriterion (leadCoprime_of_coprime h hbasis hp hq hcoprime)
  · have hpn := hbasis.nvars_eq p hp
    have hqn := hbasis.nvars_eq q hq
    obtain ⟨reducer, hreducer, hover⟩ := ofElements_ok h hbasis
    by_cases hunit : Invertible h p q
    · obtain ⟨s, c, hs, hsn, hc, hsd⟩ := sPolynomial_ok h hpn hqn hunit.1 hunit.2
      obtain ⟨r, hr, hrn, hnf⟩ := normalForm_spec h hover hsn
      have hjoins := hnf.joins_insert hc hsd
      rw [result_join_reduced htol (Bool.not_eq_true _ ▸ hpass) hreducer hs hr]
      by_cases hzero : r.isZero = true
      · have hrd := (isZero_iff hrn).mp hzero
        rw [hrd] at hjoins
        rw [if_pos hzero]
        exact .joins hunit hjoins.of_insert_zero
      · rw [if_neg hzero]
        refine .remainder hunit hrn ?_ ?_ hnf.irreducible ?_
        · rwa [ne_eq, ← isZero_iff hrn]
        · rw [hnf.mem_ideal_iff, hsd, MvPolynomial.smul_eq_C_mul]
          exact Ideal.mul_mem_left _ _ (sPolynomial_mem_ideal (denote_mem_denotations hp)
            (denote_mem_denotations hq))
        · rw [denotations_concat]
          exact hjoins
    · obtain ⟨cause, hs⟩ := sPolynomial_fails h hpn hqn (hbasis.denote_ne_zero p hp)
        (hbasis.denote_ne_zero q hq) hunit
      rw [join, if_neg hpass, htol, Traced.result_lift_bind hreducer]
      simp only [element]
      rw [Traced.result_lift_bind_error hs]
      exact .refused hunit

end PolyIdeal.Buchberger
