import PolyIdeal.Proofs.Basis.Groebner

/-!
# The reduced Groebner basis

Without a tolerance and with leading coefficients one the computation succeeds for all generators,
and its result is the reduced Groebner basis of their ideal.
-/

namespace PolyIdeal

open Monomial MonomialOrder PolyIdeal.Polynomial Reducer

variable {R : Type} [CommRing R] [DecidableEq R] {n : ℕ} {order : Order}
  (h : order.accepts n = true) {generators basis : List (Polynomial R)}

section Result

section Denotations

variable {h} {I : Ideal (MvPolynomial (Fin n) R)}
  (hreduced : IsReducedGroebner (order.monomialOrder n h) I (basis.map (denote n)))
include hreduced

theorem IsReducedGroebner.span_denotations : Ideal.span (denotations n basis) = I := by
  rw [← setOf_mem_map_denote]
  exact hreduced.span_eq

private theorem IsReducedGroebner.isGroebner_denotations :
    IsGroebner (order.monomialOrder n h) (denotations n basis) := by
  rw [← setOf_mem_map_denote]
  exact hreduced.isGroebner

end Denotations

variable [Coefficient R] [FieldCoefficient R]

include h in
theorem groebnerBasis_spec {config : Config} (hn : ∀ g ∈ generators, g.nvars = n)
    (htol : config.tolerance = none) (hmonic : config.monic = true) :
    ∃ basis, (groebnerBasis generators order config).result = .ok basis ∧ Proper n basis ∧
      IsReducedGroebner (order.monomialOrder n h) (Ideal.span (denotations n generators))
        (basis.map (denote n)) := by
  obtain ⟨basis, hresult, hbasis⟩ := groebnerBasis_ok h hn htol
  exact ⟨basis, hresult, hbasis.proper, hbasis.isReducedGroebner
    (hbasis.monic hmonic FieldCoefficient.isField_domain) hbasis.sorted⟩

end Result

/-- A list is the reduced Groebner basis of an ideal, in terms of its leading terms. -/
structure IsReducedBasis (order : Order) (n : ℕ) (I : Ideal (MvPolynomial (Fin n) R))
    (basis : List (Polynomial R)) : Prop where
  nvars_eq : ∀ g ∈ basis, g.nvars = n
  span_eq : Ideal.span (denotations n basis) = I
  leading_divides : ∀ f : Polynomial R, f.nvars = n → f.denote n ∈ I → f.isZero = false →
    ∃ g ∈ basis, ∃ lf lg, f.leadingMonomial order = .ok lf ∧ g.leadingMonomial order = .ok lg ∧
      Monomial.divides lg lf = true
  monic : ∀ g ∈ basis, g.leadingCoefficient order = .ok 1
  reduced : basis.Pairwise fun f g => ∃ lf lg, f.leadingMonomial order = .ok lf ∧
    g.leadingMonomial order = .ok lg ∧ (∀ m ∈ f.monomials, Monomial.divides lg m = false) ∧
    ∀ m ∈ g.monomials, Monomial.divides lf m = false
  sorted : basis.Pairwise fun f g => ∃ lf lg, f.leadingMonomial order = .ok lf ∧
    g.leadingMonomial order = .ok lg ∧ order.compare lf lg = .gt

theorem leading_divides_of_isGroebner (hbasis : Proper n basis)
    (hgroebner : IsGroebner (order.monomialOrder n h) (denotations n basis)) {f : Polynomial R}
    (hf : f.nvars = n) (hmem : f.denote n ∈ Ideal.span (denotations n basis))
    (hzero : f.isZero = false) : ∃ g ∈ basis, ∃ lf lg, f.leadingMonomial order = .ok lf ∧
      g.leadingMonomial order = .ok lg ∧ Monomial.divides lg lf = true := by
  have hne := (isZero_eq_false_iff hf).mp hzero
  obtain ⟨_, ⟨g, hg, rfl⟩, hle⟩ := hgroebner _ hmem hne
  refine ⟨g, hg, _, _, leadingMonomial_ok h hf hne,
    leadingMonomial_ok h (hbasis.nvars_eq g hg) (hbasis.denote_ne_zero g hg), ?_⟩
  rw [divides_ofExponents, decide_eq_true_iff]
  exact hle

private theorem not_divides_of_reducedBy {p q : Polynomial R} (hp : p.nvars = n)
    (hred : ReducedBy (order.monomialOrder n h) (p.denote n) (q.denote n)) :
    ∀ m ∈ p.monomials, Monomial.divides
      (ofExponents ((order.monomialOrder n h).degree (q.denote n))) m = false := by
  intro m hm
  obtain ⟨e, rfl⟩ := exists_ofExponents ((length_of_mem_monomials hm).trans hp)
  rw [divides_ofExponents, decide_eq_false_iff_not]
  exact hred e ((mem_monomials_iff hp).mp hm)

private theorem IsReducedGroebner.isReducedBasis {I : Ideal (MvPolynomial (Fin n) R)}
    (hbasis : Proper n basis)
    (hreduced : IsReducedGroebner (order.monomialOrder n h) I (basis.map (denote n))) :
    IsReducedBasis order n I basis where
  nvars_eq := hbasis.nvars_eq
  span_eq := hreduced.span_denotations
  leading_divides f hf hmem hzero :=
    leading_divides_of_isGroebner h hbasis hreduced.isGroebner_denotations hf
      (hreduced.span_denotations.symm ▸ hmem) hzero
  monic := by
    intro g hg
    rw [leadingCoefficient_ok h (hbasis.nvars_eq g hg) (hbasis.denote_ne_zero g hg),
      hreduced.monic _ (List.mem_map_of_mem hg)]
  reduced := by
    apply (List.pairwise_map.mp hreduced.reduced).imp_of_mem
    intro f g hf hg hfg
    refine ⟨_, _, leadingMonomial_ok h (hbasis.nvars_eq f hf) (hbasis.denote_ne_zero f hf),
      leadingMonomial_ok h (hbasis.nvars_eq g hg) (hbasis.denote_ne_zero g hg), ?_, ?_⟩
    · exact not_divides_of_reducedBy h (hbasis.nvars_eq f hf) hfg.1
    · exact not_divides_of_reducedBy h (hbasis.nvars_eq g hg) hfg.2
  sorted := by
    apply (List.pairwise_map.mp hreduced.sorted).imp_of_mem
    intro f g hf hg hlt
    refine ⟨_, _, leadingMonomial_ok h (hbasis.nvars_eq f hf) (hbasis.denote_ne_zero f hf),
      leadingMonomial_ok h (hbasis.nvars_eq g hg) (hbasis.denote_ne_zero g hg), ?_⟩
    rw [Order.compare_ofExponents (h := h)]
    exact hlt

variable [Coefficient R] [FieldCoefficient R]

/-- Over a field the reduced Groebner basis of the ideal of the generators is computed, and it is
empty only for zeros. -/
theorem groebnerBasis_isReducedBasis {config : Config} (h : order.accepts n = true)
    (hn : ∀ g ∈ generators, g.nvars = n) (htol : config.tolerance = none)
    (hmonic : config.monic = true) :
    ∃ basis, (groebnerBasis generators order config).result = .ok basis ∧
      IsReducedBasis order n (Ideal.span (denotations n generators)) basis ∧
      (basis = [] ↔ ∀ g ∈ generators, g.isZero = true) := by
  obtain ⟨basis, hresult, hbasis, hreduced⟩ := groebnerBasis_spec h hn htol hmonic
  refine ⟨basis, hresult, hreduced.isReducedBasis h hbasis, ?_⟩
  rw [← List.map_eq_nil_iff (f := denote n), hreduced.eq_nil_iff, Ideal.span_eq_bot]
  constructor
  · intro hzero g hg
    exact (isZero_iff (hn g hg)).mpr (hzero _ (denote_mem_denotations hg))
  · rintro hzero F ⟨g, hg, rfl⟩
    exact (isZero_iff (hn g hg)).mp (hzero g hg)

theorem groebnerBasis_isReducedBasis_hyperbolaAndLine :
    ∃ basis, (groebnerBasis hyperbolaAndLine .degRevlex { check := true }).result = .ok basis ∧
      IsReducedBasis .degRevlex 2 (Ideal.span (denotations 2 hyperbolaAndLine)) basis ∧
      (basis = [] ↔ ∀ g ∈ hyperbolaAndLine, g.isZero = true) :=
  groebnerBasis_isReducedBasis rfl nvars_hyperbolaAndLine rfl rfl

end PolyIdeal
