import PolyIdeal.Basis.Groebner
import PolyIdeal.Proofs.Basis.Buchberger

/-!
# Membership in an ideal

A basis reduces all s-polynomials to zero exactly if reduction to zero decides membership in its
ideal.
-/

namespace PolyIdeal

open MonomialOrder PolyIdeal.Polynomial Reducer Completion Buchberger

variable {R : Type} [CommRing R] [DecidableEq R] [Coefficient R] {n : ℕ} {order : Order}
  (h : order.accepts n = true) {basis : List (Polynomial R)} {r : Reducer R}

private theorem annihilates_ok [ExactCoefficient R] (hr : r.Over h basis) {f : Polynomial R}
    (hf : f.nvars = n) :
    ∃ f' : Polynomial R, (r.annihilates f).result = .ok f'.isZero ∧ f'.nvars = n ∧
      IsNormalForm (order.monomialOrder n h) (denotations n basis) (f.denote n)
        (f'.denote n) := by
  obtain ⟨f', hf', hfn, hnf⟩ := normalForm_spec h hr hf
  refine ⟨f', ?_, hfn, hnf⟩
  rw [annihilates, Traced.result_bind hf', hr.tolerance_eq,
    Traced.result_lift_bind (chop_none f')]
  rfl

private theorem annihilates_of_isStrongGroebner [ExactCoefficient R] (hr : r.Over h basis)
    (hstrong : IsStrongGroebner (order.monomialOrder n h) (denotations n basis))
    {f : Polynomial R} (hf : f.nvars = n) :
    ∃ b, (r.annihilates f).result = .ok b ∧
      (b = true ↔ f.denote n ∈ Ideal.span (denotations n basis)) := by
  obtain ⟨f', hresult, hfn, hnf⟩ := annihilates_ok h hr hf
  refine ⟨f'.isZero, hresult, ?_⟩
  rw [isZero_iff hfn]
  exact hnf.eq_zero_iff hstrong

/-- Reduction to zero modulo a list decides membership in its ideal. -/
def DecidesMembership (order : Order) (n : ℕ) (basis : List (Polynomial R)) : Prop :=
  ∀ f : Polynomial R, f.nvars = n → ∃ b, (idealContains basis f order none).result = .ok b ∧
    (b = true ↔ f.denote n ∈ Ideal.span (denotations n basis))

theorem decidesMembership_of_isStrongGroebner [ExactCoefficient R] (hbasis : Proper n basis)
    (hstrong : IsStrongGroebner (order.monomialOrder n h) (denotations n basis)) :
    DecidesMembership order n basis := by
  intro f hf
  obtain ⟨r, hok, hr⟩ := ofBasis_ok h hbasis
  rw [idealContains, Traced.result_lift_bind hok]
  exact annihilates_of_isStrongGroebner h hr hstrong hf

theorem allVanish_ok {fs : List (Polynomial R)}
    (hfs : ∀ f ∈ fs, (r.annihilates f).result = .ok true) :
    (allVanish r fs).result = .ok true := by
  induction fs with
  | nil => rfl
  | cons f fs ih =>
    rw [allVanish, Traced.result_bind (hfs f (by simp))]
    exact ih fun f' hf' => hfs f' (List.mem_cons_of_mem f hf')

def AnnihilatesIdeal (n : ℕ) (basis : List (Polynomial R)) (r : Reducer R) : Prop :=
  ∀ f : Polynomial R, f.nvars = n → f.denote n ∈ Ideal.span (denotations n basis) →
    (r.annihilates f).result = .ok true

variable [FieldCoefficient R]

private theorem annihilates_spec (hr : r.Over h basis)
    (hgroebner : IsGroebner (order.monomialOrder n h) (denotations n basis)) {f : Polynomial R}
    (hf : f.nvars = n) :
    ∃ b, (r.annihilates f).result = .ok b ∧
      (b = true ↔ f.denote n ∈ Ideal.span (denotations n basis)) :=
  annihilates_of_isStrongGroebner h hr
    (hgroebner.isStrongGroebner (hr.proper.isUnit_leadingCoeff _)) hf

theorem annihilatesIdeal_of_isGroebner (hr : r.Over h basis)
    (hgroebner : IsGroebner (order.monomialOrder n h) (denotations n basis)) :
    AnnihilatesIdeal n basis r := by
  intro f hf hmem
  obtain ⟨b, hb, hiff⟩ := annihilates_spec h hr hgroebner hf
  rw [hb, hiff.mpr hmem]

private theorem sPolynomial_annihilates (hr : r.Over h basis) {p q : Polynomial R} (hp : p ∈ basis)
    (hq : q ∈ basis) :
    ∃ s b, sPolynomial p q order none = .ok s ∧ s.nvars = n ∧
      s.denote n ∈ Ideal.span (denotations n basis) ∧ (r.annihilates s).result = .ok b ∧
      (b = true →
        Joins (order.monomialOrder n h) (denotations n basis) (p.denote n) (q.denote n)) := by
  have hunit := hr.proper.isUnit_leadingCoeff (order.monomialOrder n h)
  obtain ⟨s, c, hs, hsn, hc, hsd⟩ := sPolynomial_ok h (hr.proper.nvars_eq p hp)
    (hr.proper.nvars_eq q hq) (hunit _ (denote_mem_denotations hp))
    (hunit _ (denote_mem_denotations hq))
  obtain ⟨s', hresult, hsn', hnf⟩ := annihilates_ok h hr hsn
  refine ⟨s, s'.isZero, hs, hsn, ?_, hresult, fun hzero => ?_⟩
  · rw [hsd, MvPolynomial.smul_eq_C_mul]
    exact Ideal.mul_mem_left _ _ (sPolynomial_mem_ideal (denote_mem_denotations hp)
      (denote_mem_denotations hq))
  · have hjoins := hnf.joins_insert hc hsd
    rw [(isZero_iff hsn').mp hzero] at hjoins
    exact hjoins.of_insert_zero

/-- Where all other pairs join, the check of some finds that those join as well, and it succeeds if
every member of the ideal is annihilated. -/
private theorem joinsVanish_spec (hr : r.Over h basis) {pairs : List (ℕ × ℕ)}
    (hpairs : PairsJoin h basis pairs) :
    ∃ b, (joinsVanish r basis pairs).result = .ok b ∧ (b = true → PairsJoin h basis []) ∧
      (AnnihilatesIdeal n basis r → b = true) := by
  induction pairs with
  | nil => exact ⟨true, rfl, fun _ => hpairs, fun _ => rfl⟩
  | cons pair pairs ih =>
    obtain ⟨i, j⟩ := pair
    rw [joinsVanish]
    cases hi : basis[i]? with
    | none => exact ih (hpairs.skip (by simp [hi]))
    | some p =>
      cases hj : basis[j]? with
      | none => exact ih (hpairs.skip (by simp [hj]))
      | some q =>
        obtain ⟨s, b, hs, hsn, hmem, hresult, hpair⟩ := sPolynomial_annihilates h hr
          (List.mem_of_getElem? hi) (List.mem_of_getElem? hj)
        simp only [hr.order_eq, hr.tolerance_eq]
        rw [Traced.result_lift_bind hs, Traced.result_bind hresult]
        cases b with
        | false =>
          -- The s-polynomial is a member that is not annihilated.
          refine ⟨false, rfl, fun hb => absurd hb Bool.false_ne_true, fun hall => ?_⟩
          have htrue := hall s hsn hmem
          rw [hresult] at htrue
          exact Except.ok.inj htrue
        | true =>
          refine ih (hpairs.skip fun p' q' hp' hq' => ?_)
          obtain rfl := Option.some.inj (hi.symm.trans hp')
          obtain rfl := Option.some.inj (hj.symm.trans hq')
          exact hpair rfl

theorem isGroebnerBasis_spec (hr : r.Over h basis)
    (hok : ofBasis order none basis = .ok r) :
    ∃ b, (isGroebnerBasis basis order none).result = .ok b ∧
      (b = true → IsGroebner (order.monomialOrder n h) (denotations n basis)) ∧
      (AnnihilatesIdeal n basis r → b = true) := by
  obtain ⟨b, hb, hjoins, hmembers⟩ := joinsVanish_spec h hr pairsSettled_criticalPairs
  refine ⟨b, ?_, fun hb' => isGroebner_of_pairsJoin h hr.proper (hjoins hb'), hmembers⟩
  rw [isGroebnerBasis, Traced.result_lift_bind hok]
  exact hb

/-- The check of the s-polynomials succeeds exactly if membership can be decided. -/
theorem isGroebnerBasis_iff_decidesMembership (h : order.accepts n = true)
    (hn : ∀ g ∈ basis, g.nvars = n) (hzero : ∀ g ∈ basis, g.isZero = false) :
    ∃ b, (isGroebnerBasis basis order none).result = .ok b ∧
      (b = true ↔ DecidesMembership order n basis) := by
  obtain ⟨r, hok, hr⟩ := ofBasis_ok h (Proper.of_isZero hn hzero)
  obtain ⟨b, hb, hgroebner, hmembers⟩ := isGroebnerBasis_spec h hr hok
  have hcontains (f : Polynomial R) :
      (idealContains basis f order none).result = (r.annihilates f).result := by
    rw [idealContains, Traced.result_lift_bind hok]
  refine ⟨b, hb, fun hb' f hf => ?_, fun hdecides => hmembers fun f hf hmem => ?_⟩
  · rw [hcontains]
    exact annihilates_spec h hr (hgroebner hb') hf
  · obtain ⟨c, hc, hiff⟩ := hdecides f hf
    rw [← hcontains, hc, hiff.mpr hmem]

/-- The hyperbola `X * Y = 1` and the line `X = Y` modulo three. -/
def hyperbolaAndLine : List (Polynomial (Residue 3)) :=
  [.multinomial (.ofTerms 2 Nat.two_pos [([1, 1], 1), ([0, 0], -1)]),
    .multinomial (.ofTerms 2 Nat.two_pos [([1, 0], 1), ([0, 1], -1)])]

theorem nvars_hyperbolaAndLine : ∀ g ∈ hyperbolaAndLine, g.nvars = 2 := by
  intro g hg
  rcases List.mem_pair.mp hg with rfl | rfl
  · exact Multinomial.nvars_ofTerms _ _ _
  · exact Multinomial.nvars_ofTerms _ _ _

private theorem isGroebnerBasis_hyperbolaAndLine :
    (isGroebnerBasis hyperbolaAndLine .lex none).result = .ok false := by
  let reducer : Reducer (Residue 3) :=
    { order := .lex
      tolerance := none
      nvars := some 2
      divisors := [.polynomial hyperbolaAndLine[0] [1, 1] 1,
        .polynomial hyperbolaAndLine[1] [1, 0] 1] }
  let remainder : Polynomial (Residue 3) :=
    .multinomial (.ofTerms 2 Nat.two_pos [([0, 2], 1), ([0, 0], -1)])
  have hreducer : ofBasis .lex none hyperbolaAndLine = .ok reducer := by cbv
  have hs : sPolynomial hyperbolaAndLine[0] hyperbolaAndLine[1] .lex none = .ok remainder := by
    cbv
  have hms : Order.lex.descending remainder.monomials = [[0, 2], [0, 0]] := by cbv
  have hnormal : (reducer.normalForm remainder).result = .ok remainder :=
    result_normalForm_none (by cbv) hms (by cbv)
  have hannihilates : (reducer.annihilates remainder).result = .ok false := by
    rw [annihilates, Traced.result_bind hnormal]
    rfl
  have hpairs : criticalPairs hyperbolaAndLine.length = [(0, 1)] := rfl
  rw [isGroebnerBasis, Traced.result_lift_bind hreducer, hpairs]
  show Traced.result (Traced.lift (sPolynomial hyperbolaAndLine[0] hyperbolaAndLine[1] .lex none) >>=
    _) = _
  rw [Traced.result_lift_bind hs, Traced.result_bind hannihilates]
  rfl

/-- The check finds that the hyperbola and the line do not decide membership in their ideal. -/
theorem isGroebnerBasis_iff_decidesMembership_hyperbolaAndLine :
    (isGroebnerBasis hyperbolaAndLine .lex none).result = .ok false ∧
      ¬ DecidesMembership .lex 2 hyperbolaAndLine := by
  have h : Order.lex.accepts 2 = true := rfl
  obtain ⟨b, hb, hiff⟩ := isGroebnerBasis_iff_decidesMembership h nvars_hyperbolaAndLine
    (by decide +kernel)
  obtain rfl := Except.ok.inj (hb.symm.trans isGroebnerBasis_hyperbolaAndLine)
  exact ⟨hb, fun hdecides => Bool.false_ne_true (hiff.mpr hdecides)⟩

end PolyIdeal
