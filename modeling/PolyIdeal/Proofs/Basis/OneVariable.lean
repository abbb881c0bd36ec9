import PolyIdeal.Proofs.Basis.Reduced
import PolyIdeal.Proofs.Euclid.Gcd

/-!
# Bases in one variable

In one variable an ideal has a single generator, which Euclid's algorithm finds. Its monic multiple
is a reduced Groebner basis for every order, and so it is the one that is computed.
-/

namespace PolyIdeal

open MonomialOrder PolyIdeal.Polynomial

variable {R : Type} [CommRing R] [DecidableEq R]

private theorem denotations_map_univariate (fs : List (Univariate R)) :
    denotations 1 (fs.map .univariate) =
      {F | ∃ f ∈ fs, Univariate.horner f.coefficients = F} := by
  ext F
  simp [denotations, denote_univariate]

private theorem denote_univariate_eq_zero {p : Univariate R} (hp : p.isZero = true) :
    (univariate p).denote 1 = 0 := by
  rw [denote_univariate, Univariate.horner_eq_zero hp]

private theorem denote_univariate_ne_zero {p : Univariate R} :
    (univariate p).denote 1 ≠ 0 ↔ p.isZero = false :=
  (isZero_eq_false_iff (p := univariate p) (n := 1) rfl).symm

section Generator

variable [Coefficient R] [FieldCoefficient R]

private theorem exists_generator (fs : List (Univariate R)) :
    ∃ d : Univariate R, Ideal.span {(univariate d).denote 1} =
      Ideal.span (denotations 1 (fs.map .univariate)) := by
  induction fs with
  | nil =>
    refine ⟨0, ?_⟩
    have hzero : (univariate (0 : Univariate R)).denote 1 = 0 := denote_univariate_eq_zero rfl
    simp [hzero]
  | cons f fs ih =>
    obtain ⟨d, hd⟩ := ih
    rw [List.map_cons, denotations_cons, Ideal.span_insert, ← hd, ← Ideal.span_insert]
    cases hf : f.isZero with
    | true =>
      refine ⟨d, ?_⟩
      rw [denote_univariate_eq_zero hf, Ideal.span_insert_zero]
    | false =>
      obtain ⟨d', -, hspan⟩ := Euclidean.gcd_ok (b := d) (.inl hf)
      refine ⟨d', ?_⟩
      rw [denote_univariate, denote_univariate, denote_univariate, hspan]

end Generator

variable {order : Order} (h : order.accepts 1 = true) {m : Univariate R}

omit [DecidableEq R] in
private theorem isReducedGroebner_singleton [IsDomain R] {M : MvPolynomial (Fin 1) R}
    (hmonic : (order.monomialOrder 1 h).leadingCoeff M = 1) :
    IsReducedGroebner (order.monomialOrder 1 h) (Ideal.span {M}) [M] where
  span_eq := by simp
  isGroebner := by
    have hset : {F | F ∈ [M]} = {M} := by simp
    rw [hset]
    exact (isStrongGroebner_singleton M).isGroebner
  monic F hF := by rwa [List.mem_singleton.mp hF]
  reduced := List.pairwise_singleton _ _
  sorted := List.pairwise_singleton _ _

variable [Coefficient R]

private theorem univariate_monic_ok [FieldCoefficient R] {d : Univariate R}
    (hd : d.isZero = false) : ∃ m, d.monic = .ok m ∧ m.leadingCoefficient? = some 1 ∧
      (order.monomialOrder 1 h).leadingCoeff ((univariate m).denote 1) = 1 ∧
      Ideal.span {(univariate m).denote 1} = Ideal.span {(univariate d).denote 1} := by
  have hne : (univariate d).denote 1 ≠ 0 := denote_univariate_ne_zero.mpr hd
  have hunit : IsUnit ((order.monomialOrder 1 h).leadingCoeff ((univariate d).denote 1)) :=
    FieldCoefficient.isUnit_of_ne_zero
      ((order.monomialOrder 1 h).leadingCoeff_ne_zero_iff.mpr hne)
  obtain ⟨r, c, hr, -, hdenote, hc⟩ := monic_ok h (p := univariate d) rfl hunit
  have hcunit : IsUnit c := IsUnit.of_mul_eq_one _ hc
  cases hmonic : d.monic with
  | error e =>
    rw [Polynomial.monic, hmonic] at hr
    cases hr
  | ok m =>
    rw [Polynomial.monic, hmonic] at hr
    obtain rfl : univariate m = r := Except.ok.inj hr
    have hlead : (order.monomialOrder 1 h).leadingCoeff ((univariate m).denote 1) = 1 := by
      rw [hdenote, leadingCoeff_C_mul hcunit, hc]
    refine ⟨m, rfl, ?_, hlead, ?_⟩
    · have hm : m.isZero = false := by
        refine denote_univariate_ne_zero.mp fun hzero => ?_
        rw [hzero, leadingCoeff_zero] at hlead
        exact zero_ne_one hlead
      obtain ⟨lc, hlc, -⟩ := Univariate.exists_leadingCoefficient hm
      rw [hlc, ← hlead, leadingCoeff_univariate h rfl hlc]
    · rw [hdenote, Ideal.span_singleton_mul_left_unit (hcunit.map MvPolynomial.C)]

/-- The computation finds a basis with the polynomial as its only element. -/
def FindsOnly (generators : List (Univariate R)) (order : Order) (config : Config)
    (m : Univariate R) : Prop :=
  ∃ b, (groebnerBasis (generators.map .univariate) order config).result = .ok [b] ∧
    b.agrees (univariate m) = true

variable [FieldCoefficient R] {generators : List (Univariate R)} {config : Config}

include h in
private theorem findsOnly_of_span_eq (htol : config.tolerance = none) (hmonic : config.monic = true)
    {d : Univariate R} (hd : d.isZero = false)
    (hspan : Ideal.span {(univariate d).denote 1} =
      Ideal.span (denotations 1 (generators.map .univariate))) :
    ∃ m, d.monic = .ok m ∧ m.leadingCoefficient? = some 1 ∧
      Ideal.span {(univariate m).denote 1} =
        Ideal.span (denotations 1 (generators.map .univariate)) ∧
      FindsOnly generators order config m := by
  obtain ⟨m, hm, hlead, hlc, hideal⟩ := univariate_monic_ok h hd
  have hn : ∀ g ∈ generators.map Polynomial.univariate, g.nvars = 1 := by
    intro g hg
    obtain ⟨f, -, rfl⟩ := List.mem_map.mp hg
    rfl
  obtain ⟨basis, hresult, hbasis, hreduced⟩ := groebnerBasis_spec h hn htol hmonic
  rw [← hspan, ← hideal] at hreduced
  have hsingle := hreduced.unique (isReducedGroebner_singleton h hlc)
  obtain ⟨b, rfl, hb⟩ := List.map_eq_singleton_iff.mp hsingle
  have hbn : b.nvars = 1 := hbasis.nvars_eq b List.mem_cons_self
  exact ⟨m, hm, hlead, hideal.trans hspan, b, hresult, (agrees_iff hbn rfl).mpr hb⟩

/-- In one variable the basis of polynomials that are not all zero is the monic generator of their
ideal. For two polynomials Euclid's algorithm finds it. -/
theorem groebnerBasis_univariate (h : order.accepts 1 = true) (htol : config.tolerance = none)
    (hmonic : config.monic = true) (hne : ∃ f ∈ generators, f.isZero = false) :
    (∃ m : Univariate R, m.leadingCoefficient? = some 1 ∧
      Ideal.span {(univariate m).denote 1} =
        Ideal.span (denotations 1 (generators.map .univariate)) ∧
      FindsOnly generators order config m) ∧
    ∀ f g, generators = [f, g] →
      ∃ d m, Euclidean.gcd f g = .ok d ∧ d.monic = .ok m ∧ FindsOnly [f, g] order config m := by
  have hnonzero {d : Univariate R} (hspan : Ideal.span {(univariate d).denote 1} =
      Ideal.span (denotations 1 (generators.map .univariate))) : d.isZero = false := by
    obtain ⟨f, hf, hf0⟩ := hne
    refine denote_univariate_ne_zero.mp fun hzero => ?_
    have hmem : (univariate f).denote 1 ∈ Ideal.span {(univariate d).denote 1} := by
      rw [hspan]
      exact Ideal.subset_span (denote_mem_denotations (List.mem_map_of_mem hf))
    rw [hzero, Ideal.mem_span_singleton, zero_dvd_iff] at hmem
    exact denote_univariate_ne_zero.mpr hf0 hmem
  constructor
  · obtain ⟨d, hspan⟩ := exists_generator generators
    obtain ⟨m, -, hlead, hideal, hfinds⟩ :=
      findsOnly_of_span_eq h htol hmonic (hnonzero hspan) hspan
    exact ⟨m, hlead, hideal, hfinds⟩
  · rintro f g rfl
    have hfg : f.isZero = false ∨ g.isZero = false := by simpa using hne
    obtain ⟨d, hd, hspan⟩ := Euclidean.gcd_ok hfg
    have hpair : Ideal.span {(univariate d).denote 1} =
        Ideal.span (denotations 1 ([f, g].map .univariate)) := by
      rw [denote_univariate, hspan, denotations_map_univariate]
      congr 1
      ext F
      simp [eq_comm]
    obtain ⟨m, hm, -, -, hfinds⟩ := findsOnly_of_span_eq h htol hmonic (hnonzero hpair) hpair
    exact ⟨d, m, hd, hm, hfinds⟩

theorem groebnerBasis_univariate_rationals :
    (∃ m : Univariate ℚ, m.leadingCoefficient? = some 1 ∧
      Ideal.span {(univariate m).denote 1} = Ideal.span (denotations 1
        ([.ofCoefficients [-1, 0, 1], .ofCoefficients [1, 1]].map .univariate)) ∧
      FindsOnly [.ofCoefficients [-1, 0, 1], .ofCoefficients [1, 1]] .degRevlex {} m) ∧
    ∀ f g : Univariate ℚ, [.ofCoefficients [-1, 0, 1], .ofCoefficients [1, 1]] = [f, g] →
      ∃ d m, Euclidean.gcd f g = .ok d ∧ d.monic = .ok m ∧ FindsOnly [f, g] .degRevlex {} m :=
  groebnerBasis_univariate rfl rfl rfl ⟨_, List.mem_cons_self, rfl⟩

end PolyIdeal
