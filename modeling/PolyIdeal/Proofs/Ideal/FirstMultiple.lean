import PolyIdeal.Proofs.Ideal.StrongBasis

/-!
# Multiples of the first divisor

When the first of several divisors is always chosen, each monomial is cancelled by one multiple only,
that of the first element whose leading monomial divides it. The combinations of these multiples are
a complement of the polynomials without reducible monomials, so that normal forms are linear. They
remain such combinations when elements are appended.
-/

namespace PolyIdeal

open MvPolynomial MonomialOrder

variable {σ R : Type} [CommRing R] {m : MonomialOrder σ} {L : List (MvPolynomial σ R)}
  {f g r : MvPolynomial σ R} {d : σ →₀ ℕ}

/-- The first element whose leading monomial divides a monomial. -/
noncomputable def firstDivisor? (m : MonomialOrder σ) (L : List (MvPolynomial σ R))
    (d : σ →₀ ℕ) : Option (MvPolynomial σ R) :=
  L.find? fun g => decide (m.degree g ≤ d)

/-- The multiple of the first divisor that leads with a monomial, or zero. -/
noncomputable def firstMultiple (m : MonomialOrder σ) (L : List (MvPolynomial σ R))
    (d : σ →₀ ℕ) : MvPolynomial σ R :=
  match firstDivisor? m L d with
  | some g => monomial (d - m.degree g) 1 * g
  | none => 0

/-- The combinations of multiples of first divisors. -/
noncomputable def firstSpan (m : MonomialOrder σ) (L : List (MvPolynomial σ R)) :
    Submodule R (MvPolynomial σ R) :=
  Submodule.span R (Set.range (firstMultiple m L))

private theorem firstMultiple_of_some (h : firstDivisor? m L d = some g) :
    firstMultiple m L d = monomial (d - m.degree g) 1 * g := by
  rw [firstMultiple, h]

private theorem firstMultiple_of_none (h : firstDivisor? m L d = none) :
    firstMultiple m L d = 0 := by
  rw [firstMultiple, h]

private theorem firstDivisor?_some (h : firstDivisor? m L d = some g) : g ∈ L ∧ m.degree g ≤ d :=
  ⟨List.mem_of_find?_eq_some h, by simpa using List.find?_some h⟩

theorem firstDivisor?_none_iff : firstDivisor? m L d = none ↔ ∀ g ∈ L, ¬ m.degree g ≤ d := by
  rw [firstDivisor?, List.find?_eq_none]
  simp only [decide_eq_true_eq]

theorem firstDivisor?_cons_of_le (h : m.degree g ≤ d) : firstDivisor? m (g :: L) d = some g :=
  List.find?_cons_of_pos (decide_eq_true h)

theorem firstDivisor?_cons_of_not_le (h : ¬ m.degree g ≤ d) :
    firstDivisor? m (g :: L) d = firstDivisor? m L d :=
  List.find?_cons_of_neg (by simpa using h)

private theorem firstDivisor?_append_of_some (h : firstDivisor? m L d = some g)
    (M : List (MvPolynomial σ R)) : firstDivisor? m (L ++ M) d = some g := by
  rw [firstDivisor?, List.find?_append, ← firstDivisor?, h]
  rfl

theorem monomial_mul_mem_firstSpan (h : firstDivisor? m L d = some g) (c : R) :
    monomial (d - m.degree g) c * g ∈ firstSpan m L := by
  have hsmul : monomial (d - m.degree g) c * g = c • firstMultiple m L d := by
    rw [firstMultiple_of_some h, ← smul_mul_assoc, smul_monomial, smul_eq_mul, mul_one]
  rw [hsmul]
  exact Submodule.smul_mem _ c (Submodule.subset_span (Set.mem_range_self d))

theorem firstSpan_le_append (L M : List (MvPolynomial σ R)) :
    firstSpan m L ≤ firstSpan m (L ++ M) := by
  apply Submodule.span_le.mpr
  rintro _ ⟨d, rfl⟩
  cases h : firstDivisor? m L d with
  | none =>
    rw [firstMultiple_of_none h]
    exact Submodule.zero_mem _
  | some g =>
    rw [firstMultiple_of_some h]
    exact monomial_mul_mem_firstSpan (firstDivisor?_append_of_some h M) 1

theorem mem_firstSpan_append (h : firstDivisor? m L (m.degree r) = none) :
    r ∈ firstSpan m (L ++ [r]) := by
  have hlast : firstDivisor? m (L ++ [r]) (m.degree r) = some r := by
    rw [firstDivisor?, List.find?_append, ← firstDivisor?, h]
    exact firstDivisor?_cons_of_le le_rfl
  have hmem := monomial_mul_mem_firstSpan hlast 1
  rwa [tsub_self, monomial_zero', C_1, one_mul] at hmem

private theorem coeff_firstMultiple_of_lt {e : σ →₀ ℕ} (h : m.toSyn d < m.toSyn e) :
    (firstMultiple m L d).coeff e = 0 := by
  cases hfirst : firstDivisor? m L d with
  | none => rw [firstMultiple_of_none hfirst, coeff_zero]
  | some g =>
    obtain ⟨hg, hle⟩ := firstDivisor?_some hfirst
    have hmem : firstMultiple m L d ∈ boundedSpan m {g | g ∈ L} (Set.Iic (m.toSyn d)) := by
      rw [firstMultiple_of_some hfirst]
      apply monomial_mul_mem_boundedSpan hg
      rw [tsub_add_cancel_of_le hle]
      exact Set.mem_Iic.mpr le_rfl
    by_contra hne
    exact not_le_of_gt h (toSyn_mem_of_mem_boundedSpan (isLowerSet_Iic _) hmem hne)

private theorem coeff_firstMultiple_self (h : firstDivisor? m L d = some g) :
    (firstMultiple m L d).coeff d = m.leadingCoeff g := by
  rw [firstMultiple_of_some h, coeff_monomial_mul', if_pos tsub_le_self,
    tsub_tsub_cancel_of_le (firstDivisor?_some h).2, one_mul]
  rfl

variable [IsDomain R] (hL : ∀ g ∈ L, g ≠ 0)
include hL

omit [IsDomain R] in
private theorem coeff_firstMultiple_self_ne_zero (h : firstMultiple m L d ≠ 0) :
    (firstMultiple m L d).coeff d ≠ 0 := by
  cases hfirst : firstDivisor? m L d with
  | none => exact absurd (firstMultiple_of_none hfirst) h
  | some g =>
    rw [coeff_firstMultiple_self hfirst]
    exact m.leadingCoeff_ne_zero_iff.mpr (hL g (firstDivisor?_some hfirst).1)

private theorem firstMultiple_degree_ne_zero (hf : f ∈ firstSpan m L) (hne : f ≠ 0) :
    firstMultiple m L (m.degree f) ≠ 0 := by
  obtain ⟨c, rfl⟩ := Finsupp.mem_span_range_iff_exists_finsupp.mp hf
  rw [Finsupp.sum] at hne ⊢
  obtain ⟨d, ⟨hd, hd0⟩, hmax⟩ : ∃ d, (d ∈ c.support ∧ firstMultiple m L d ≠ 0) ∧
      ∀ e ∈ c.support, firstMultiple m L e ≠ 0 → m.toSyn e ≤ m.toSyn d := by
    classical
    obtain ⟨e, he, he0⟩ := Finset.exists_ne_zero_of_sum_ne_zero hne
    obtain ⟨d, hd, hmax⟩ := Finset.exists_max_image
      (c.support.filter fun d => firstMultiple m L d ≠ 0) m.toSyn
      ⟨e, Finset.mem_filter.mpr ⟨he, right_ne_zero_of_smul he0⟩⟩
    exact ⟨d, Finset.mem_filter.mp hd, fun e he he0 => hmax e (Finset.mem_filter.mpr ⟨he, he0⟩)⟩
  -- The highest monomial with a multiple occurs,
  have hcoeff : (∑ e ∈ c.support, c e • firstMultiple m L e).coeff d ≠ 0 := by
    rw [coeff_sum, Finset.sum_eq_single_of_mem d hd, coeff_smul, smul_eq_mul]
    · exact mul_ne_zero (Finsupp.mem_support_iff.mp hd)
        (coeff_firstMultiple_self_ne_zero hL hd0)
    · intro e he hed
      rw [coeff_smul]
      by_cases he0 : firstMultiple m L e = 0
      · rw [he0, coeff_zero, smul_zero]
      · have hlt := lt_of_le_of_ne (hmax e he he0) fun heq => hed (m.toSyn.injective heq)
        rw [coeff_firstMultiple_of_lt hlt, smul_zero]
  -- and nothing above it does.
  have hdegree : m.degree (∑ e ∈ c.support, c e • firstMultiple m L e) = d := by
    apply m.toSyn.injective
    refine le_antisymm ?_ (m.le_degree (mem_support_iff.mpr hcoeff))
    have hlead := m.coeff_degree_ne_zero_iff.mpr hne
    rw [coeff_sum] at hlead
    obtain ⟨e, he, he0⟩ := Finset.exists_ne_zero_of_sum_ne_zero hlead
    rw [coeff_smul] at he0
    have hne' := right_ne_zero_of_smul he0
    have hle : m.toSyn (m.degree (∑ e ∈ c.support, c e • firstMultiple m L e)) ≤ m.toSyn e :=
      le_of_not_gt fun hlt => hne' (coeff_firstMultiple_of_lt hlt)
    exact hle.trans (hmax e he fun hzero => hne' (by rw [hzero, coeff_zero]))
  rwa [hdegree]

private theorem exists_degree_le_of_mem_firstSpan (hf : f ∈ firstSpan m L) (hne : f ≠ 0) :
    ∃ g ∈ L, m.degree g ≤ m.degree f := by
  have hfirst := firstMultiple_degree_ne_zero hL hf hne
  cases hg : firstDivisor? m L (m.degree f) with
  | none => exact absurd (firstMultiple_of_none hg) hfirst
  | some g => exact ⟨g, firstDivisor?_some hg⟩

theorem eq_of_sub_mem_firstSpan {r' : MvPolynomial σ R} (hf : f - r ∈ firstSpan m L)
    (hf' : f - r' ∈ firstSpan m L) (hr : ∀ e ∈ r.support, ∀ g ∈ L, ¬ m.degree g ≤ e)
    (hr' : ∀ e ∈ r'.support, ∀ g ∈ L, ¬ m.degree g ≤ e) : r = r' := by
  by_contra hne
  have hmem : r - r' ∈ firstSpan m L := by
    rw [← sub_sub_sub_cancel_left r' r f]
    exact Submodule.sub_mem _ hf' hf
  have hne' : r - r' ≠ 0 := sub_ne_zero.mpr hne
  obtain ⟨g, hg, hle⟩ := exists_degree_le_of_mem_firstSpan hL hmem hne'
  have hlead := m.coeff_degree_ne_zero_iff.mpr hne'
  rw [coeff_sub] at hlead
  by_cases hzero : r.coeff (m.degree (r - r')) = 0
  · refine hr' _ (mem_support_iff.mpr fun hzero' => hlead ?_) g hg hle
    rw [hzero, hzero', sub_zero]
  · exact hr _ (mem_support_iff.mpr hzero) g hg hle

end PolyIdeal
