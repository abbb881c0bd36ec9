import PolyIdeal.Proofs.Basis.Reduced

/-!
# Normal forms and cosets

Modulo Groebner bases of one ideal, however different they are, two polynomials have the same normal
form exactly if they lie in the same coset.
-/

namespace PolyIdeal

open Monomial MonomialOrder PolyIdeal.Polynomial Reducer

variable {R : Type} [CommRing R] [DecidableEq R] {n : ℕ} {order : Order}

/-- A list of polynomials other than zero is a Groebner basis of an ideal, in terms of its leading
monomials. -/
structure IsGroebnerBasisOf (order : Order) (n : ℕ) (I : Ideal (MvPolynomial (Fin n) R))
    (basis : List (Polynomial R)) : Prop where
  nvars_eq : ∀ g ∈ basis, g.nvars = n
  isZero_eq : ∀ g ∈ basis, g.isZero = false
  span_eq : Ideal.span (denotations n basis) = I
  leading_divides : ∀ f : Polynomial R, f.nvars = n → f.denote n ∈ I → f.isZero = false →
    ∃ g ∈ basis, ∃ lf lg, f.leadingMonomial order = .ok lf ∧ g.leadingMonomial order = .ok lg ∧
      Monomial.divides lg lf = true

variable (h : order.accepts n = true) {I : Ideal (MvPolynomial (Fin n) R)}
  {basis : List (Polynomial R)}

include h in
private theorem isGroebnerBasisOf_of_isGroebner (hbasis : Proper n basis)
    (hgroebner : IsGroebner (order.monomialOrder n h) (denotations n basis)) :
    IsGroebnerBasisOf order n (Ideal.span (denotations n basis)) basis where
  nvars_eq := hbasis.nvars_eq
  isZero_eq g hg := (isZero_eq_false_iff (hbasis.nvars_eq g hg)).mpr (hbasis.denote_ne_zero g hg)
  span_eq := rfl
  leading_divides _ hf hmem hzero := leading_divides_of_isGroebner h hbasis hgroebner hf hmem hzero

theorem isGroebnerBasisOf_singleton [IsDomain R] (h : order.accepts n = true) {g : Polynomial R}
    (hg : g.nvars = n) (hzero : g.isZero = false) :
    IsGroebnerBasisOf order n (Ideal.span {g.denote n}) [g] := by
  have hbasis := Proper.singleton hg ((isZero_eq_false_iff hg).mp hzero)
  have hstrong := (isStrongGroebner_singleton (m := order.monomialOrder n h) (g.denote n))
  rw [← denotations_singleton] at hstrong ⊢
  exact isGroebnerBasisOf_of_isGroebner h hbasis hstrong.isGroebner

namespace IsGroebnerBasisOf

variable (hI : IsGroebnerBasisOf order n I basis)
include hI

theorem proper : Proper n basis :=
  Proper.of_isZero hI.nvars_eq hI.isZero_eq

/-- Leading monomials divide those of all members of the ideal, since each is what some polynomial
stands for. -/
theorem isGroebner : IsGroebner (order.monomialOrder n h) (denotations n basis) := by
  intro F hF hne
  rw [hI.span_eq] at hF
  cases hbasis : basis with
  | nil =>
    rw [← hI.span_eq, hbasis, denotations_nil, Ideal.span_empty, Ideal.mem_bot] at hF
    exact absurd hF hne
  | cons p rest =>
    rw [← hbasis]
    obtain ⟨f, hf, rfl⟩ := exists_denote_eq (hI.nvars_eq p (hbasis ▸ List.mem_cons_self)) F
    obtain ⟨g, hg, lf, lg, hlf, hlg, hdvd⟩ :=
      hI.leading_divides f hf hF ((isZero_eq_false_iff hf).mpr hne)
    rw [leadingMonomial_ok h hf hne] at hlf
    rw [leadingMonomial_ok h (hI.nvars_eq g hg) (hI.proper.denote_ne_zero g hg)] at hlg
    obtain rfl := Except.ok.inj hlf
    obtain rfl := Except.ok.inj hlg
    rw [divides_ofExponents, decide_eq_true_iff] at hdvd
    exact ⟨_, denote_mem_denotations hg, hdvd⟩

private theorem insert {f : Polynomial R} (hf : f.nvars = n) (hzero : f.isZero = false)
    (hmem : f.denote n ∈ I) (basis' : List (Polynomial R))
    (hbasis' : basis'.Perm (f :: basis)) : IsGroebnerBasisOf order n I basis' where
  nvars_eq g hg := by
    rcases List.mem_cons.mp (hbasis'.subset hg) with rfl | hg
    · exact hf
    · exact hI.nvars_eq g hg
  isZero_eq g hg := by
    rcases List.mem_cons.mp (hbasis'.subset hg) with rfl | hg
    · exact hzero
    · exact hI.isZero_eq g hg
  span_eq := by
    rw [← hI.span_eq] at hmem
    rw [denotations_perm hbasis', span_cons_of_mem hmem, hI.span_eq]
  leading_divides g hg hgmem hgzero := by
    obtain ⟨g', hg', hdvd⟩ := hI.leading_divides g hg hgmem hgzero
    exact ⟨g', hbasis'.symm.subset (List.mem_cons_of_mem f hg'), hdvd⟩

variable [Coefficient R]

theorem reduce_spec [ExactCoefficient R] {f : Polynomial R} (hf : f.nvars = n) :
    ∃ r, (reduce f basis order none).result = .ok r ∧ r.nvars = n ∧
      IsNormalForm (order.monomialOrder n h) (denotations n basis) (f.denote n)
        (r.denote n) :=
  reduce_ok h hI.proper hf

end IsGroebnerBasisOf

variable [Coefficient R] [FieldCoefficient R] {basis' : List (Polynomial R)}

theorem isGroebnerBasis_iff_isGroebnerBasisOf (h : order.accepts n = true)
    (hbasis : Proper n basis) :
    ∃ b, (isGroebnerBasis basis order none).result = .ok b ∧
      (b = true ↔ IsGroebnerBasisOf order n (Ideal.span (denotations n basis)) basis) := by
  obtain ⟨r, hok, hr⟩ := ofBasis_ok h hbasis
  obtain ⟨b, hb, hgroebner, hmembers⟩ := isGroebnerBasis_spec h hr hok
  refine ⟨b, hb, fun hb' => isGroebnerBasisOf_of_isGroebner h hbasis (hgroebner hb'), fun hI => ?_⟩
  exact hmembers (annihilatesIdeal_of_isGroebner h hr (hI.isGroebner h))

/-- Normal forms modulo Groebner bases of the same ideal are the same exactly for polynomials of the
same coset. -/
theorem reduce_agrees_iff (h : order.accepts n = true) (hI : IsGroebnerBasisOf order n I basis)
    (hI' : IsGroebnerBasisOf order n I basis') {f g : Polynomial R} (hf : f.nvars = n)
    (hg : g.nvars = n) :
    ∃ r r', (reduce f basis order none).result = .ok r ∧
      (reduce g basis' order none).result = .ok r' ∧
      (r.agrees r' = true ↔ f.denote n - g.denote n ∈ I) := by
  obtain ⟨r, hr, hrn, hnf⟩ := hI.reduce_spec h hf
  obtain ⟨r', hr', hrn', hnf'⟩ := hI'.reduce_spec h hg
  refine ⟨r, r', hr, hr', ?_⟩
  rw [agrees_iff hrn hrn', ← hI.span_eq]
  exact hnf.eq_iff_sub_mem hnf' (hI.span_eq.trans hI'.span_eq.symm) (hI.isGroebner h)
    (hI'.isGroebner h) (hI.proper.isUnit_leadingCoeff _) (hI'.proper.isUnit_leadingCoeff _)

theorem reduce_agrees_iff_rationals :
    ∃ r r', (reduce (.univariate (.ofCoefficients [1, 1] : Univariate ℚ))
        [.univariate (.ofCoefficients [0, 1])] .lex none).result = .ok r ∧
      (reduce (.univariate (.ofCoefficients [1] : Univariate ℚ))
        [.univariate (.ofCoefficients [0, 2]), .univariate (.ofCoefficients [0, 1])] .lex
        none).result = .ok r' ∧
      (r.agrees r' = true ↔
        (univariate (.ofCoefficients [1, 1] : Univariate ℚ)).denote 1 -
          (univariate (.ofCoefficients [1] : Univariate ℚ)).denote 1 ∈
        Ideal.span {(univariate (.ofCoefficients [0, 1] : Univariate ℚ)).denote 1}) := by
  have hX : IsGroebnerBasisOf .lex 1
      (Ideal.span {(univariate (.ofCoefficients [0, 1] : Univariate ℚ)).denote 1})
      [.univariate (.ofCoefficients [0, 1])] := isGroebnerBasisOf_singleton rfl rfl rfl
  refine reduce_agrees_iff rfl hX (hX.insert rfl rfl ?_ _ (List.Perm.refl _)) rfl rfl
  have hscale : (univariate (.ofCoefficients [0, 2] : Univariate ℚ)) =
      (univariate (.ofCoefficients [0, 1] : Univariate ℚ)).scale 2 := by decide +kernel
  rw [hscale, (scale_spec (n := 1) rfl 2).2]
  exact Ideal.mul_mem_left _ _ (Ideal.subset_span rfl)

end PolyIdeal
