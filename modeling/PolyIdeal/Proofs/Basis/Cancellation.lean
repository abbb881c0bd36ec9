import PolyIdeal.Proofs.Basis.Reduced

/-!
# Cancellation of leading terms

Over a field two polynomials other than zero have an s-polynomial: both are shifted to the least
common multiple of their leading monomials, where the leading terms cancel. It is a member of their
ideal that stays below this multiple, and by Buchberger's first criterion nothing is left of it
modulo the two if their leading monomials have no variable in common.
-/

namespace PolyIdeal

open Monomial MonomialOrder PolyIdeal.Polynomial Reducer

variable {R : Type} [CommRing R] [DecidableEq R] [Coefficient R] {n : ℕ} {order : Order}

/-- That `s` is what is left of `f` and `g` when their leading terms, at `lf` and `lg`, cancel. -/
structure IsCancellation (order : Order) (n : ℕ) (f g : Polynomial R) (lf lg : Monomial)
    (s : Polynomial R) : Prop where
  nvars_eq : s.nvars = n
  /-- The shifted leading monomials are the same, so that the check of them passes. -/
  shifts : ∃ nu mu, Monomial.shifts (Monomial.lcm lf lg) lf lg = .ok (nu, mu) ∧
    Monomial.mul nu lf = Monomial.lcm lf lg ∧ Monomial.mul mu lg = Monomial.lcm lf lg
  /-- Both polynomials are shifted and divided by their leading coefficients. -/
  identity : ∃ nu mu a b a' b', Monomial.shifts (Monomial.lcm lf lg) lf lg = .ok (nu, mu) ∧
    f.leadingCoefficient order = .ok a ∧ g.leadingCoefficient order = .ok b ∧
    a * a' = 1 ∧ b * b' = 1 ∧
    s.denote n = MvPolynomial.monomial (exponents n nu) a' * f.denote n -
      MvPolynomial.monomial (exponents n mu) b' * g.denote n
  mem_ideal : s.denote n ∈ Ideal.span {f.denote n, g.denote n}
  below : ∀ m ∈ s.monomials, order.compare m (Monomial.lcm lf lg) = .lt
  /-- The other way round it is the negative. -/
  antisymm : ∃ t, sPolynomial g f order none = .ok t ∧ t.agrees (-s) = true
  /-- The first polynomial and itself leave nothing. -/
  self_isZero : ∃ z, sPolynomial f f order none = .ok z ∧ z.isZero = true
  /-- Buchberger's first criterion. -/
  vanishes : Monomial.coprime lf lg = true →
    ∃ r, (reduce s [f, g] order none).result = .ok r ∧ r.isZero = true

section Exact

variable [ExactCoefficient R] (h : order.accepts n = true) {f g : Polynomial R}

private theorem sPolynomial_self_isZero (hf : f.nvars = n)
    (hfu : IsUnit ((order.monomialOrder n h).leadingCoeff (f.denote n))) :
    ∃ z, sPolynomial f f order none = .ok z ∧ z.isZero = true := by
  obtain ⟨z, c, hz, hzn, -, hzd⟩ := sPolynomial_ok h hf hf hfu hfu
  refine ⟨z, hz, ?_⟩
  rw [isZero_iff hzn, hzd, sPolynomial_self, smul_zero]

private theorem sPolynomial_swap (hf : f.nvars = n) (hg : g.nvars = n)
    (hfu : IsUnit ((order.monomialOrder n h).leadingCoeff (f.denote n)))
    (hgu : IsUnit ((order.monomialOrder n h).leadingCoeff (g.denote n))) {s : Polynomial R}
    (hs : sPolynomial f g order none = .ok s) :
    ∃ t, sPolynomial g f order none = .ok t ∧ t.agrees (-s) = true := by
  obtain ⟨s', c, hs', hsn, hc, hsd⟩ := sPolynomial_normalized h hf hg hfu hgu
  obtain rfl := Except.ok.inj (hs'.symm.trans hs)
  obtain ⟨t, c', ht, htn, hc', htd⟩ := sPolynomial_normalized h hg hf hgu hfu
  obtain ⟨hneg, hnegd⟩ := neg_spec hsn
  have hscale : c' = c := by
    rw [mul_comm ((order.monomialOrder n h).leadingCoeff (g.denote n))] at hc'
    exact left_inv_eq_right_inv hc' ((mul_comm _ c).trans hc)
  refine ⟨t, ht, (agrees_iff htn hneg).mpr ?_⟩
  rw [htd, hnegd, hsd, hscale, sPolynomial_antisymm, smul_neg]

end Exact

section Pair

variable (h : order.accepts n = true) {f g s : Polynomial R} {c : R}
  (hs : s.denote n = c • (order.monomialOrder n h).sPolynomial (f.denote n) (g.denote n))

include hs

omit [Coefficient R] in
private theorem identity_of_sPolynomial
    (hc : c * ((order.monomialOrder n h).leadingCoeff (f.denote n) *
      (order.monomialOrder n h).leadingCoeff (g.denote n)) = 1) :
    ∃ a' b', (order.monomialOrder n h).leadingCoeff (f.denote n) * a' = 1 ∧
      (order.monomialOrder n h).leadingCoeff (g.denote n) * b' = 1 ∧
      s.denote n =
        MvPolynomial.monomial ((order.monomialOrder n h).degree (f.denote n) ⊔
          (order.monomialOrder n h).degree (g.denote n) -
            (order.monomialOrder n h).degree (f.denote n)) a' * f.denote n -
        MvPolynomial.monomial ((order.monomialOrder n h).degree (f.denote n) ⊔
          (order.monomialOrder n h).degree (g.denote n) -
            (order.monomialOrder n h).degree (g.denote n)) b' * g.denote n := by
  refine ⟨c * (order.monomialOrder n h).leadingCoeff (g.denote n),
    c * (order.monomialOrder n h).leadingCoeff (f.denote n), ?_, ?_, ?_⟩
  · rw [mul_left_comm, hc]
  · rw [mul_left_comm, mul_comm ((order.monomialOrder n h).leadingCoeff (g.denote n)), hc]
  · rw [hs, sPolynomial_def, smul_sub, ← smul_mul_assoc, ← smul_mul_assoc,
      MvPolynomial.smul_monomial, MvPolynomial.smul_monomial, smul_eq_mul, smul_eq_mul]

omit [Coefficient R] in
private theorem mem_span_of_sPolynomial : s.denote n ∈ Ideal.span {f.denote n, g.denote n} := by
  rw [hs, MvPolynomial.smul_eq_C_mul]
  apply Ideal.mul_mem_left
  exact sPolynomial_mem_ideal (Set.mem_insert _ _)
    (Set.mem_insert_of_mem _ (Set.mem_singleton _))

omit [Coefficient R] in
private theorem compare_lcm_of_sPolynomial (hsn : s.nvars = n) {m : Monomial}
    (hm : m ∈ s.monomials) :
    order.compare m (Monomial.lcm (ofExponents ((order.monomialOrder n h).degree (f.denote n)))
      (ofExponents ((order.monomialOrder n h).degree (g.denote n)))) = .lt := by
  obtain ⟨e, rfl⟩ := exists_ofExponents ((length_of_mem_monomials hm).trans hsn)
  have he := (mem_monomials_iff hsn).mp hm
  rw [hs] at he
  rw [lcm_ofExponents, Order.compare_eq_cmp (h := h), cmp_eq_lt_iff]
  exact toSyn_lt_of_mem_support_sPolynomial he

private theorem reduce_sPolynomial_of_coprime [FieldCoefficient R] (hsn : s.nvars = n)
    (hbasis : Proper n [f, g])
    (hcoprime : LeadCoprime (order.monomialOrder n h) (f.denote n) (g.denote n)) :
    ∃ r, (reduce s [f, g] order none).result = .ok r ∧ r.isZero = true := by
  have hdenotations : denotations n [f, g] = {f.denote n, g.denote n} := by
    rw [denotations_cons, denotations_singleton]
  have hgroebner : IsGroebner (order.monomialOrder n h) (denotations n [f, g]) := by
    rw [hdenotations]
    exact hcoprime.isGroebner_pair (hbasis.denote_ne_zero f (by simp))
      (hbasis.denote_ne_zero g (by simp))
  obtain ⟨r, hr, hrn, hnf⟩ := reduce_ok h hbasis hsn
  refine ⟨r, hr, ?_⟩
  rw [isZero_iff hrn,
    hnf.eq_zero_iff (hgroebner.isStrongGroebner (hbasis.isUnit_leadingCoeff _)), hdenotations]
  exact mem_span_of_sPolynomial h hs

end Pair

/-- Over a field the leading terms of any two polynomials other than zero cancel. -/
theorem sPolynomial_isCancellation [FieldCoefficient R] (h : order.accepts n = true)
    {f g : Polynomial R} (hf : f.nvars = n) (hg : g.nvars = n) (hf0 : f.isZero = false)
    (hg0 : g.isZero = false) :
    ∃ lf lg s, f.leadingMonomial order = .ok lf ∧ g.leadingMonomial order = .ok lg ∧
      sPolynomial f g order none = .ok s ∧ IsCancellation order n f g lf lg s := by
  have hfne := (isZero_eq_false_iff hf).mp hf0
  have hgne := (isZero_eq_false_iff hg).mp hg0
  have hbasis : Proper n [f, g] := (Proper.singleton hf hfne).append (Proper.singleton hg hgne)
  have hunit := hbasis.isUnit_leadingCoeff (order.monomialOrder n h)
  have hfu := hunit _ (denote_mem_denotations (List.mem_cons_self))
  have hgu := hunit _ (denote_mem_denotations (List.mem_cons_of_mem f List.mem_cons_self))
  obtain ⟨s, c, hs, hsn, hc, hsd⟩ := sPolynomial_normalized h hf hg hfu hgu
  obtain ⟨a', b', ha', hb', hsum⟩ := identity_of_sPolynomial h hsd hc
  refine ⟨_, _, s, leadingMonomial_ok h hf hfne, leadingMonomial_ok h hg hgne, hs, ?_⟩
  exact
    { nvars_eq := hsn
      shifts := by
        refine ⟨_, _, by rw [lcm_ofExponents, shifts_ofExponents], ?_, ?_⟩
        · rw [mul_ofExponents, lcm_ofExponents, tsub_add_cancel_of_le le_sup_left]
        · rw [mul_ofExponents, lcm_ofExponents, tsub_add_cancel_of_le le_sup_right]
      identity := by
        refine ⟨_, _, _, _, a', b', by rw [lcm_ofExponents, shifts_ofExponents],
          leadingCoefficient_ok h hf hfne, leadingCoefficient_ok h hg hgne, ha', hb', ?_⟩
        rw [exponents_ofExponents, exponents_ofExponents]
        exact hsum
      mem_ideal := mem_span_of_sPolynomial h hsd
      below := fun m hm => compare_lcm_of_sPolynomial h hsd hsn hm
      antisymm := sPolynomial_swap h hf hg hfu hgu hs
      self_isZero := sPolynomial_self_isZero h hf hfu
      vanishes := fun hcoprime =>
        reduce_sPolynomial_of_coprime h hsd hsn hbasis (sup_eq_add_of_coprime hcoprime) }

/-- The parabola `X^2 + Y = 0`. -/
def parabola : Polynomial ℚ :=
  .multinomial (.ofTerms 2 Nat.two_pos [([2, 0], 1), ([0, 1], 1)])

/-- The parallel lines `2 * Y^2 = 3`. -/
def parallelLines : Polynomial ℚ :=
  .multinomial (.ofTerms 2 Nat.two_pos [([0, 2], 2), ([0, 0], -3)])

theorem sPolynomial_isCancellation_parabola :
    ∃ lf lg s, parabola.leadingMonomial .lex = .ok lf ∧
      parallelLines.leadingMonomial .lex = .ok lg ∧
      sPolynomial parabola parallelLines .lex none = .ok s ∧
      IsCancellation .lex 2 parabola parallelLines lf lg s :=
  sPolynomial_isCancellation rfl (Multinomial.nvars_ofTerms _ _ _)
    (Multinomial.nvars_ofTerms _ _ _) (by decide +kernel) (by decide +kernel)

end PolyIdeal
