import PolyIdeal.Proofs.Ideal.BoundedSpan

/-!
# Buchberger's criterion

If the s-polynomial of any two of some polynomials is a combination of them that stays below the
least common multiple of their leading monomials, then every member of their ideal has a multiple by
a constant that is a combination up to its own degree, so that one of the leading monomials divides
its leading monomial. This needs no invertible leading coefficients, only a domain.
-/

namespace PolyIdeal

open MvPolynomial MonomialOrder

variable {σ R : Type} [CommRing R] {m : MonomialOrder σ} {G H : Set (MvPolynomial σ R)}

/-- Every leading monomial of the ideal is divisible by the leading monomial of a generator. -/
def IsGroebner (m : MonomialOrder σ) (G : Set (MvPolynomial σ R)) : Prop :=
  ∀ f ∈ Ideal.span G, f ≠ 0 → ∃ g ∈ G, m.degree g ≤ m.degree f

/-- The s-polynomial of two polynomials is a combination below the least common multiple of their
leading monomials. -/
def Joins (m : MonomialOrder σ) (G : Set (MvPolynomial σ R)) (f g : MvPolynomial σ R) : Prop :=
  m.sPolynomial f g ∈ boundedSpan m G (Set.Iio (m.toSyn (m.degree f ⊔ m.degree g)))

theorem Joins.mono {f g : MvPolynomial σ R} (h : Joins m G f g) (hGH : G ⊆ H) : Joins m H f g :=
  boundedSpan_mono hGH le_rfl h

theorem Joins.symm {f g : MvPolynomial σ R} (h : Joins m G f g) : Joins m G g f := by
  rw [Joins, sPolynomial_antisymm, sup_comm]
  exact Submodule.neg_mem _ h

theorem joins_self (f : MvPolynomial σ R) : Joins m G f f := by
  rw [Joins, sPolynomial_self]
  exact Submodule.zero_mem _

theorem Joins.of_insert_zero {f g : MvPolynomial σ R} (h : Joins m (insert 0 G) f g) :
    Joins m G f g := by
  refine (Submodule.span_le.mpr ?_ : boundedSpan m (insert 0 G) _ ≤ boundedSpan m G _) h
  rintro F ⟨u, p, hp, hu, rfl⟩
  rcases Set.mem_insert_iff.mp hp with rfl | hp
  · rw [mul_zero]
    exact Submodule.zero_mem _
  · exact monomial_mul_mem_boundedSpan hp hu 1

theorem sPolynomial_mem_ideal {f g : MvPolynomial σ R} (hf : f ∈ G) (hg : g ∈ G) :
    m.sPolynomial f g ∈ Ideal.span G :=
  Ideal.sub_mem _ (Ideal.mul_mem_left _ _ (Ideal.subset_span hf))
    (Ideal.mul_mem_left _ _ (Ideal.subset_span hg))

theorem toSyn_lt_of_mem_support_sPolynomial {f g : MvPolynomial σ R} {c : R} {e : σ →₀ ℕ}
    (he : e ∈ (c • m.sPolynomial f g).support) :
    m.toSyn e < m.toSyn (m.degree f ⊔ m.degree g) := by
  rw [mem_support_iff, coeff_smul, smul_eq_mul] at he
  have hmem : e ∈ (m.sPolynomial f g).support := mem_support_iff.mpr (right_ne_zero_of_mul he)
  have hne : m.sPolynomial f g ≠ 0 := support_nonempty.mp ⟨e, hmem⟩
  exact lt_of_le_of_lt (m.le_degree hmem) (m.degree_sPolynomial_lt_sup_degree hne)

/-- Only multiples of polynomials whose leading monomial divides the bound reach it. -/
private theorem boundedSpan_Iic_le_Iio {d : σ →₀ ℕ} (h : ∀ g ∈ G, ¬ m.degree g ≤ d) :
    boundedSpan m G (Set.Iic (m.toSyn d)) ≤ boundedSpan m G (Set.Iio (m.toSyn d)) := by
  apply Submodule.span_mono
  rintro f ⟨u, g, hg, hu, rfl⟩
  refine ⟨u, g, hg, lt_of_le_of_ne (Set.mem_Iic.mp hu) ?_, rfl⟩
  intro heq
  apply h g hg
  rw [← m.toSyn.injective heq]
  exact le_add_self

theorem exists_degree_le {f : MvPolynomial σ R} (hne : f ≠ 0)
    (hf : f ∈ boundedSpan m G (Set.Iic (m.toSyn (m.degree f)))) :
    ∃ g ∈ G, m.degree g ≤ m.degree f := by
  by_contra hall
  push Not at hall
  have hlt := boundedSpan_Iic_le_Iio hall hf
  have hcoeff : f.coeff (m.degree f) ≠ 0 := m.coeff_degree_ne_zero_iff.mpr hne
  exact lt_irrefl _ (toSyn_mem_of_mem_boundedSpan (isLowerSet_Iio _) hlt hcoeff)

/-- Two multiples that lead at one monomial differ, scaled to equal leading coefficients, by a
multiple of the s-polynomial. -/
private theorem sub_multiples_mem_boundedSpan {f g : MvPolynomial σ R} (h : Joins m G f g)
    {u v d : σ →₀ ℕ} (hu : u + m.degree f = d) (hv : v + m.degree g = d) :
    m.leadingCoeff g • (monomial u 1 * f) - m.leadingCoeff f • (monomial v 1 * g) ∈
      boundedSpan m G (Set.Iio (m.toSyn d)) := by
  have hle : m.degree f ⊔ m.degree g ≤ d :=
    sup_le (hu ▸ le_add_self) (hv ▸ le_add_self)
  obtain ⟨w, hw⟩ := exists_add_of_le hle
  have hu' : u = w + (m.degree f ⊔ m.degree g - m.degree f) := by
    apply add_right_cancel (b := m.degree f)
    rw [add_assoc, tsub_add_cancel_of_le le_sup_left, hu, hw, add_comm]
  have hv' : v = w + (m.degree f ⊔ m.degree g - m.degree g) := by
    apply add_right_cancel (b := m.degree g)
    rw [add_assoc, tsub_add_cancel_of_le le_sup_right, hv, hw, add_comm]
  have hmul : m.leadingCoeff g • (monomial u 1 * f) - m.leadingCoeff f • (monomial v 1 * g) =
      monomial w 1 * m.sPolynomial f g := by
    rw [sPolynomial_def, mul_sub, ← mul_assoc, ← mul_assoc, monomial_mul, monomial_mul, ← hu',
      ← hv', ← smul_mul_assoc, ← smul_mul_assoc, smul_monomial, smul_monomial, smul_eq_mul,
      smul_eq_mul, mul_comm 1, mul_comm 1]
  rw [hmul]
  apply mul_mem_boundedSpan_of_mem h
  intro u hu x hx
  obtain rfl : u = w := by
    have := Finsupp.support_single_subset hu
    simpa using this
  rw [Set.mem_Iio, hw, add_comm (m.degree f ⊔ m.degree g), map_add]
  exact add_lt_add_right hx _

section Criterion

variable (hjoins : ∀ f ∈ G, ∀ g ∈ G, Joins m G f g)
include hjoins

/-- In a combination up to a bound one multiple that reaches the bound can take the place of all the
others that do. -/
private theorem exchange_mem_boundedSpan_Iio {g₀ : MvPolynomial σ R} (hg₀ : g₀ ∈ G) {u₀ d : σ →₀ ℕ}
    (hu₀ : u₀ + m.degree g₀ = d) {f : MvPolynomial σ R}
    (hf : f ∈ boundedSpan m G (Set.Iic (m.toSyn d))) :
    m.leadingCoeff g₀ • f - f.coeff d • (monomial u₀ 1 * g₀) ∈
      boundedSpan m G (Set.Iio (m.toSyn d)) := by
  induction hf using Submodule.span_induction with
  | mem f hf =>
    obtain ⟨u, g, hg, hu, rfl⟩ := hf
    rcases (Set.mem_Iic.mp hu).lt_or_eq with hlt | heq
    · have hmem : monomial u 1 * g ∈ boundedSpan m G (Set.Iio (m.toSyn d)) :=
        monomial_mul_mem_boundedSpan hg hlt 1
      have hzero : (monomial u 1 * g).coeff d = 0 := by
        by_contra hne
        exact lt_irrefl _ (toSyn_mem_of_mem_boundedSpan (isLowerSet_Iio _) hmem hne)
      rw [hzero, zero_smul, sub_zero]
      exact Submodule.smul_mem _ _ hmem
    · have hu : u + m.degree g = d := m.toSyn.injective heq
      have hcoeff : (monomial u 1 * g).coeff d = m.leadingCoeff g := by
        rw [← hu, coeff_monomial_mul, one_mul]
        rfl
      rw [hcoeff]
      exact sub_multiples_mem_boundedSpan (hjoins g hg g₀ hg₀) hu hu₀
  | zero => simp
  | add f f' _ _ hf hf' =>
    rw [smul_add, coeff_add, add_smul, add_sub_add_comm]
    exact Submodule.add_mem _ hf hf'
  | smul c f _ hf =>
    rw [coeff_smul, smul_comm, smul_assoc, ← smul_sub]
    exact Submodule.smul_mem _ c hf

variable [IsDomain R] (hne : ∀ g ∈ G, g ≠ 0)
include hne

private theorem exists_smul_mem_boundedSpan_Iio {f : MvPolynomial σ R} {d : σ →₀ ℕ}
    (hf : f ∈ boundedSpan m G (Set.Iic (m.toSyn d))) (hd : f.coeff d = 0) :
    ∃ c : R, c ≠ 0 ∧ c • f ∈ boundedSpan m G (Set.Iio (m.toSyn d)) := by
  by_cases hall : ∀ g ∈ G, ¬ m.degree g ≤ d
  · refine ⟨1, one_ne_zero, ?_⟩
    rw [one_smul]
    exact boundedSpan_Iic_le_Iio hall hf
  · push Not at hall
    obtain ⟨g₀, hg₀, hle⟩ := hall
    have hu₀ : (d - m.degree g₀) + m.degree g₀ = d := tsub_add_cancel_of_le hle
    have hscaled := exchange_mem_boundedSpan_Iio hjoins hg₀ hu₀ hf
    rw [hd, zero_smul, sub_zero] at hscaled
    exact ⟨_, m.leadingCoeff_ne_zero_iff.mpr (hne g₀ hg₀), hscaled⟩

/-- Every ideal member has a multiple that is a combination up to its own degree. -/
private theorem exists_smul_mem_boundedSpan_degree {f : MvPolynomial σ R} (hf : f ∈ Ideal.span G) :
    ∃ c : R, c ≠ 0 ∧ c • f ∈ boundedSpan m G (Set.Iic (m.toSyn (m.degree f))) := by
  obtain ⟨d, hd⟩ := exists_bound_of_mem_ideal (m := m) hf
  induction d using WellFoundedLT.induction generalizing f with
  | ind d ih =>
    rcases le_or_gt d (m.toSyn (m.degree f)) with hle | hlt
    · refine ⟨1, one_ne_zero, ?_⟩
      rw [one_smul]
      exact boundedSpan_Iic_mono hle hd
    · obtain ⟨e, rfl⟩ := m.toSyn.surjective d
      obtain ⟨c, hc, hbelow⟩ :=
        exists_smul_mem_boundedSpan_Iio hjoins hne hd (m.coeff_eq_zero_of_lt hlt)
      rcases exists_bound_of_mem_boundedSpan_Iio hbelow with hzero | ⟨d', hlt', hd'⟩
      · refine ⟨c, hc, ?_⟩
        rw [hzero]
        exact Submodule.zero_mem _
      · obtain ⟨c', hc', hmem⟩ := ih d' hlt' (mem_ideal_of_mem_boundedSpan hd') hd'
        have hdeg : m.degree (c • f) = m.degree f :=
          m.degree_smul_of_isRegular (IsRegular.of_ne_zero hc)
        rw [hdeg, smul_smul] at hmem
        exact ⟨c' * c, mul_ne_zero hc' hc, hmem⟩

/-- Over a domain polynomials of which any two join are a Groebner basis. -/
theorem isGroebner_of_joins : IsGroebner m G := by
  intro f hf hf0
  obtain ⟨c, hc, hmem⟩ := exists_smul_mem_boundedSpan_degree hjoins hne hf
  have hdeg : m.degree (c • f) = m.degree f :=
    m.degree_smul_of_isRegular (IsRegular.of_ne_zero hc)
  rw [← hdeg] at hmem ⊢
  exact exists_degree_le (smul_ne_zero hc hf0) hmem

end Criterion

/-- The leading monomials have no variable in common. -/
def LeadCoprime (m : MonomialOrder σ) (f g : MvPolynomial σ R) : Prop :=
  m.degree f ⊔ m.degree g = m.degree f + m.degree g

theorem LeadCoprime.symm {f g : MvPolynomial σ R} (h : LeadCoprime m f g) :
    LeadCoprime m g f := by
  rw [LeadCoprime, sup_comm, add_comm]
  exact h

theorem LeadCoprime.eq_zero_of_le {f g : MvPolynomial σ R} (h : LeadCoprime m f g)
    (hle : m.degree f ≤ m.degree g) : m.degree f = 0 := by
  rwa [LeadCoprime, sup_eq_right.mpr hle, right_eq_add] at h

/-- Polynomials with coprime leading monomials always join: the s-polynomial is the combination of
the two with what follows their leading terms. -/
theorem LeadCoprime.joins {f g : MvPolynomial σ R} (hlcm : LeadCoprime m f g) (hf : f ∈ G)
    (hg : g ∈ G) : Joins m G f g := by
  rw [LeadCoprime] at hlcm
  have hsub : m.degree f ⊔ m.degree g - m.degree f = m.degree g := by
    rw [hlcm, add_tsub_cancel_left]
  have hsub' : m.degree f ⊔ m.degree g - m.degree g = m.degree f := by
    rw [hlcm, add_tsub_cancel_right]
  have htails : m.sPolynomial f g =
      (f - m.leadingTerm f) * g - (g - m.leadingTerm g) * f := by
    rw [sPolynomial_def, hsub, hsub']
    simp only [leadingTerm]
    ring
  have htail (p : MvPolynomial σ R) (e : σ →₀ ℕ) (he : e ∈ (p - m.leadingTerm p).support) :
      m.toSyn e < m.toSyn (m.degree p) := by
    classical
    have hcoeff : (p - m.leadingTerm p).coeff e ≠ 0 := mem_support_iff.mp he
    rw [leadingTerm, coeff_sub, coeff_monomial] at hcoeff
    have hne : m.degree p ≠ e := by
      rintro rfl
      rw [if_pos rfl] at hcoeff
      exact hcoeff (sub_self _)
    rw [if_neg hne, sub_zero] at hcoeff
    exact lt_of_le_of_ne (m.le_degree (mem_support_iff.mpr hcoeff))
      fun heq => hne (m.toSyn.injective heq.symm)
  rw [Joins, htails, hlcm]
  refine Submodule.sub_mem _ (mul_mem_boundedSpan hg ?_) (mul_mem_boundedSpan hf ?_)
  · intro e he
    rw [Set.mem_Iio, map_add, map_add]
    exact add_lt_add_left (htail f e he) _
  · intro e he
    rw [Set.mem_Iio, map_add, map_add, add_comm (m.toSyn (m.degree f))]
    exact add_lt_add_left (htail g e he) _

/-- Buchberger's first criterion: two polynomials with coprime leading monomials already have all
leading monomials of their ideal. -/
theorem LeadCoprime.isGroebner_pair [IsDomain R] {f g : MvPolynomial σ R} (h : LeadCoprime m f g)
    (hf : f ≠ 0) (hg : g ≠ 0) : IsGroebner m {f, g} := by
  have hfg : Joins m {f, g} f g :=
    h.joins (Set.mem_insert f {g}) (Set.mem_insert_of_mem f (Set.mem_singleton g))
  apply isGroebner_of_joins
  · rintro p (rfl | rfl) q (rfl | rfl)
    · exact joins_self _
    · exact hfg
    · exact hfg.symm
    · exact joins_self _
  · rintro p (rfl | rfl)
    · exact hf
    · exact hg

end PolyIdeal
