import Mathlib.RingTheory.MvPolynomial.IrreducibleQuadratic
import Mathlib.RingTheory.MvPolynomial.MonomialOrder

/-!
# Combinations of bounded degree

The combinations of multiples of some polynomials in which no multiple leads beyond a bound. They are
what reductions add and subtract, and refine membership in the ideal: every member has a
combination, but possibly only with multiples far above its own degree.
-/

namespace PolyIdeal

open MvPolynomial MonomialOrder

variable {σ R : Type} [CommRing R] {m : MonomialOrder σ}
  {G H : Set (MvPolynomial σ R)} {s t : Set m.syn}

/-- The combinations of multiples of `G` whose leading monomials lie in `s`. -/
noncomputable def boundedSpan (m : MonomialOrder σ) (G : Set (MvPolynomial σ R)) (s : Set m.syn) :
    Submodule R (MvPolynomial σ R) :=
  Submodule.span R {f | ∃ u, ∃ g ∈ G, m.toSyn (u + m.degree g) ∈ s ∧ f = monomial u 1 * g}

theorem monomial_mul_mem_boundedSpan {g : MvPolynomial σ R} (hg : g ∈ G) {u : σ →₀ ℕ}
    (hu : m.toSyn (u + m.degree g) ∈ s) (c : R) : monomial u c * g ∈ boundedSpan m G s := by
  have hsmul : monomial u c * g = c • (monomial u 1 * g) := by
    rw [← smul_mul_assoc, smul_monomial, smul_eq_mul, mul_one]
  rw [hsmul]
  exact Submodule.smul_mem _ c (Submodule.subset_span ⟨u, g, hg, hu, rfl⟩)

theorem mul_mem_boundedSpan {g q : MvPolynomial σ R} (hg : g ∈ G)
    (hq : ∀ u ∈ q.support, m.toSyn (u + m.degree g) ∈ s) : q * g ∈ boundedSpan m G s := by
  rw [q.as_sum, Finset.sum_mul]
  exact Submodule.sum_mem _ fun u hu => monomial_mul_mem_boundedSpan hg (hq u hu) _

theorem mem_boundedSpan_self {g : MvPolynomial σ R} (hg : g ∈ G)
    (hs : m.toSyn (m.degree g) ∈ s) : g ∈ boundedSpan m G s := by
  have hmem := monomial_mul_mem_boundedSpan (s := s) hg (u := 0) (by rwa [zero_add]) 1
  rwa [monomial_zero', C_1, one_mul] at hmem

theorem boundedSpan_mono (hGH : G ⊆ H) (hst : s ⊆ t) : boundedSpan m G s ≤ boundedSpan m H t := by
  apply Submodule.span_mono
  rintro f ⟨u, g, hg, hu, rfl⟩
  exact ⟨u, g, hGH hg, hst hu, rfl⟩

theorem boundedSpan_Iic_mono {d d' : m.syn} (h : d ≤ d') :
    boundedSpan m G (Set.Iic d) ≤ boundedSpan m G (Set.Iic d') :=
  boundedSpan_mono le_rfl (Set.Iic_subset_Iic.mpr h)

theorem mem_ideal_of_mem_boundedSpan {f : MvPolynomial σ R} (hf : f ∈ boundedSpan m G s) :
    f ∈ Ideal.span G := by
  induction hf using Submodule.span_induction with
  | mem f hf =>
    obtain ⟨u, g, hg, -, rfl⟩ := hf
    exact Ideal.mul_mem_left _ _ (Ideal.subset_span hg)
  | zero => exact Ideal.zero_mem _
  | add f f' _ _ hf hf' => exact Ideal.add_mem _ hf hf'
  | smul c f _ hf =>
    rw [smul_eq_C_mul]
    exact Ideal.mul_mem_left _ _ hf

theorem mul_mem_boundedSpan_of_mem {f q : MvPolynomial σ R} (hf : f ∈ boundedSpan m G s)
    (hst : ∀ u ∈ q.support, ∀ d ∈ s, m.toSyn u + d ∈ t) : q * f ∈ boundedSpan m G t := by
  induction hf using Submodule.span_induction with
  | mem f hf =>
    obtain ⟨u, g, hg, hu, rfl⟩ := hf
    rw [q.as_sum, Finset.sum_mul]
    apply Submodule.sum_mem _
    intro v hv
    rw [← mul_assoc, monomial_mul]
    apply monomial_mul_mem_boundedSpan hg
    rw [add_assoc, map_add]
    exact hst v hv _ hu
  | zero =>
    rw [mul_zero]
    exact Submodule.zero_mem _
  | add f f' _ _ hf hf' =>
    rw [mul_add]
    exact Submodule.add_mem _ hf hf'
  | smul c f _ hf =>
    rw [mul_smul_comm]
    exact Submodule.smul_mem _ c hf

theorem exists_bound_of_mem_ideal {f : MvPolynomial σ R} (hf : f ∈ Ideal.span G) :
    ∃ d, f ∈ boundedSpan m G (Set.Iic d) := by
  induction hf using Submodule.span_induction with
  | mem f hf => exact ⟨m.toSyn (m.degree f), mem_boundedSpan_self hf (Set.mem_Iic.mpr le_rfl)⟩
  | zero => exact ⟨0, Submodule.zero_mem _⟩
  | add f f' _ _ hf hf' =>
    obtain ⟨d, hd⟩ := hf
    obtain ⟨d', hd'⟩ := hf'
    refine ⟨max d d', Submodule.add_mem _ ?_ ?_⟩
    · exact boundedSpan_Iic_mono (le_max_left d d') hd
    · exact boundedSpan_Iic_mono (le_max_right d d') hd'
  | smul q f _ hf =>
    obtain ⟨d, hd⟩ := hf
    refine ⟨m.toSyn (m.degree q) + d, mul_mem_boundedSpan_of_mem hd ?_⟩
    intro u hu d' hd'
    exact add_le_add (m.le_degree hu) hd'

theorem toSyn_mem_of_mem_boundedSpan (hs : IsLowerSet s) {f : MvPolynomial σ R}
    (hf : f ∈ boundedSpan m G s) {e : σ →₀ ℕ} (he : f.coeff e ≠ 0) : m.toSyn e ∈ s := by
  induction hf using Submodule.span_induction with
  | mem f hf =>
    obtain ⟨u, g, -, hu, rfl⟩ := hf
    rw [coeff_monomial_mul'] at he
    split at he
    · rename_i hle
      rw [one_mul] at he
      refine hs ?_ hu
      have hdeg := m.le_degree (mem_support_iff.mpr he)
      calc m.toSyn e = m.toSyn u + m.toSyn (e - u) := by rw [← map_add, add_tsub_cancel_of_le hle]
        _ ≤ m.toSyn u + m.toSyn (m.degree g) := add_le_add_right hdeg _
        _ = m.toSyn (u + m.degree g) := (map_add _ _ _).symm
    · exact absurd rfl he
  | zero => exact absurd (coeff_zero e) he
  | add f f' _ _ hf hf' =>
    rw [coeff_add] at he
    by_cases hzero : f.coeff e = 0
    · exact hf' fun hzero' => he (by rw [hzero, hzero', add_zero])
    · exact hf hzero
  | smul c f _ hf =>
    rw [coeff_smul, smul_eq_mul] at he
    exact hf (right_ne_zero_of_mul he)

theorem exists_bound_of_mem_boundedSpan_Iio {f : MvPolynomial σ R} {d : m.syn}
    (hf : f ∈ boundedSpan m G (Set.Iio d)) :
    f = 0 ∨ ∃ d' < d, f ∈ boundedSpan m G (Set.Iic d') := by
  induction hf using Submodule.span_induction with
  | mem f hf =>
    obtain ⟨u, g, hg, hu, rfl⟩ := hf
    refine .inr ⟨m.toSyn (u + m.degree g), hu, ?_⟩
    exact monomial_mul_mem_boundedSpan hg (Set.mem_Iic.mpr le_rfl) 1
  | zero => exact .inl rfl
  | add f f' _ _ hf hf' =>
    rcases hf with hf | ⟨d₁, hlt₁, hf⟩
    · rwa [hf, zero_add]
    · rcases hf' with hf' | ⟨d₂, hlt₂, hf'⟩
      · rw [hf', add_zero]
        exact .inr ⟨d₁, hlt₁, hf⟩
      · refine .inr ⟨max d₁ d₂, max_lt hlt₁ hlt₂, Submodule.add_mem _ ?_ ?_⟩
        · exact boundedSpan_Iic_mono (le_max_left d₁ d₂) hf
        · exact boundedSpan_Iic_mono (le_max_right d₁ d₂) hf'
  | smul c f _ hf =>
    rcases hf with hf | ⟨d', hlt, hf⟩
    · exact .inl (by rw [hf, smul_zero])
    · exact .inr ⟨d', hlt, Submodule.smul_mem _ c hf⟩

/-- The quotients of a combination, one for each polynomial of a family. -/
theorem exists_quotients {ι : Type} [Fintype ι] [DecidableEq ι] {g : ι → MvPolynomial σ R}
    {f : MvPolynomial σ R} (hf : f ∈ boundedSpan m (Set.range g) s) :
    ∃ q : ι → MvPolynomial σ R, f = ∑ j, q j * g j ∧
      ∀ j, q j * g j ∈ boundedSpan m (Set.range g) s := by
  induction hf using Submodule.span_induction with
  | mem f hf =>
    obtain ⟨u, _, ⟨j, rfl⟩, hu, rfl⟩ := hf
    refine ⟨Pi.single j (monomial u 1), ?_, fun i => ?_⟩
    · rw [Finset.sum_eq_single j, Pi.single_eq_same]
      · intro i _ hi
        rw [Pi.single_eq_of_ne hi, zero_mul]
      · intro hj
        exact absurd (Finset.mem_univ j) hj
    · by_cases hi : i = j
      · rw [hi, Pi.single_eq_same]
        exact monomial_mul_mem_boundedSpan (Set.mem_range_self j) hu 1
      · rw [Pi.single_eq_of_ne hi, zero_mul]
        exact Submodule.zero_mem _
  | zero => exact ⟨0, by simp, fun j => by simp⟩
  | add f f' _ _ hf hf' =>
    obtain ⟨q, rfl, hq⟩ := hf
    obtain ⟨q', rfl, hq'⟩ := hf'
    refine ⟨q + q', ?_, fun j => ?_⟩
    · simp only [Pi.add_apply, add_mul, Finset.sum_add_distrib]
    · rw [Pi.add_apply, add_mul]
      exact Submodule.add_mem _ (hq j) (hq' j)
  | smul c f _ hf =>
    obtain ⟨q, rfl, hq⟩ := hf
    refine ⟨c • q, ?_, fun j => ?_⟩
    · simp only [Pi.smul_apply, smul_mul_assoc, Finset.smul_sum]
    · rw [Pi.smul_apply, smul_mul_assoc]
      exact Submodule.smul_mem _ c (hq j)

end PolyIdeal
