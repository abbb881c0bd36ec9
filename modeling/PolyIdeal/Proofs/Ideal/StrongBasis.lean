import PolyIdeal.Proofs.Ideal.NormalForm

/-!
# Strong Groebner bases

Where leading coefficients are not invertible a Groebner basis is of use for reductions only if
leading terms are divisible, and not just leading monomials. Modulo such a strong basis zero is the
only normal form of an ideal member. Groebner bases with invertible leading coefficients are strong,
and so is a single polynomial over a domain.
-/

namespace PolyIdeal

open MvPolynomial MonomialOrder

variable {σ R : Type} [CommRing R] {m : MonomialOrder σ} {G : Set (MvPolynomial σ R)}
  {f r : MvPolynomial σ R}

/-- Every leading term of the ideal is divisible by the leading term of a generator. -/
def IsStrongGroebner (m : MonomialOrder σ) (G : Set (MvPolynomial σ R)) : Prop :=
  ∀ f ∈ Ideal.span G, f ≠ 0 → Cancellable m G f (m.degree f)

theorem IsStrongGroebner.isGroebner (h : IsStrongGroebner m G) : IsGroebner m G := by
  intro f hf hne
  obtain ⟨g, hg, hle, -⟩ := h f hf hne
  exact ⟨g, hg, hle⟩

theorem IsGroebner.isStrongGroebner (h : IsGroebner m G)
    (hunit : ∀ g ∈ G, IsUnit (m.leadingCoeff g)) : IsStrongGroebner m G := by
  intro f hf hne
  obtain ⟨g, hg, hle⟩ := h f hf hne
  exact ⟨g, hg, hle, (hunit g hg).dvd⟩

theorem isStrongGroebner_empty : IsStrongGroebner m (∅ : Set (MvPolynomial σ R)) := by
  intro f hf hne
  rw [Ideal.span_empty, Ideal.mem_bot] at hf
  exact absurd hf hne

theorem isStrongGroebner_singleton [IsDomain R] (g : MvPolynomial σ R) :
    IsStrongGroebner m {g} := by
  intro f hf hne
  obtain ⟨q, rfl⟩ := Ideal.mem_span_singleton'.mp hf
  have hlead : m.leadingCoeff (q * g) = m.leadingCoeff q * m.leadingCoeff g := m.leadingCoeff_mul
  refine ⟨g, rfl, ?_, Dvd.intro_left _ hlead.symm⟩
  rw [m.degree_mul (left_ne_zero_of_mul hne) (right_ne_zero_of_mul hne)]
  exact le_add_self

/-- No term of either polynomial is a multiple of the leading term of the other. -/
def Coreduced (m : MonomialOrder σ) (f g : MvPolynomial σ R) : Prop :=
  Irreducible m {g} f ∧ Irreducible m {f} g

instance : Std.Symm (Coreduced m : MvPolynomial σ R → MvPolynomial σ R → Prop) :=
  ⟨fun _ _ h => h.symm⟩

/-- A strong Groebner basis without reducible elements has invertible leading coefficients if the
ideal has any Groebner basis with invertible leading coefficients. -/
theorem IsStrongGroebner.isUnit_leadingCoeff {H : Set (MvPolynomial σ R)}
    (hG : IsStrongGroebner m G) (hcoreduced : G.Pairwise (Coreduced m)) (hH : IsGroebner m H)
    (hunit : ∀ g ∈ H, IsUnit (m.leadingCoeff g)) (hspan : Ideal.span G = Ideal.span H) (hf : f ∈ G)
    (hne : f ≠ 0) : IsUnit (m.leadingCoeff f) := by
  nontriviality R
  obtain ⟨g, hg, hle⟩ := hH f (hspan ▸ Ideal.subset_span hf) hne
  have hg0 : g ≠ 0 := m.leadingCoeff_ne_zero_iff.mp (hunit g hg).ne_zero
  obtain ⟨f', hf', hle', hdvd⟩ := hG g (hspan ▸ Ideal.subset_span hg) hg0
  have hunit' : IsUnit (m.leadingCoeff f') := isUnit_of_dvd_unit hdvd (hunit g hg)
  -- The leading term of the second element divides that of the first.
  have heq : f = f' := by
    by_contra hne'
    exact (hcoreduced hf hf' hne').1 _ (m.degree_mem_support hne)
      (cancellable_singleton.mpr ⟨hle'.trans hle, hunit'.dvd⟩)
  rwa [heq]

namespace IsNormalForm

variable (h : IsNormalForm m G f r)
include h

theorem eq_zero_iff (hG : IsStrongGroebner m G) : r = 0 ↔ f ∈ Ideal.span G := by
  rw [← h.mem_ideal_iff]
  constructor
  · rintro rfl
    exact Ideal.zero_mem _
  · intro hr
    by_contra hne
    exact h.irreducible _ (m.degree_mem_support hne) (hG r hr hne)

/-- Normal forms modulo two Groebner bases of one ideal with invertible leading coefficients differ
exactly if the polynomials differ modulo the ideal. -/
theorem eq_iff_sub_mem {G' : Set (MvPolynomial σ R)} {f' r' : MvPolynomial σ R}
    (h' : IsNormalForm m G' f' r') (hspan : Ideal.span G = Ideal.span G')
    (hG : IsGroebner m G) (hG' : IsGroebner m G')
    (hunit : ∀ g ∈ G, IsUnit (m.leadingCoeff g)) (hunit' : ∀ g ∈ G', IsUnit (m.leadingCoeff g)) :
    r = r' ↔ f - f' ∈ Ideal.span G := by
  have hsub : f - r ∈ Ideal.span G := h.sub_mem_ideal
  have hsub' : f' - r' ∈ Ideal.span G := hspan ▸ h'.sub_mem_ideal
  constructor
  · rintro rfl
    rw [← sub_sub_sub_cancel_right f f' r]
    exact Ideal.sub_mem _ hsub hsub'
  · intro hmem
    by_contra hne
    have hr : r - r' ∈ Ideal.span G := by
      have heq : r - r' = f - f' - (f - r - (f' - r')) := by ring
      rw [heq]
      exact Ideal.sub_mem _ hmem (Ideal.sub_mem _ hsub hsub')
    have hne' : r - r' ≠ 0 := sub_ne_zero.mpr hne
    -- The leading monomial of the difference occurs in one of the normal forms.
    have hlead := m.coeff_degree_ne_zero_iff.mpr hne'
    rw [coeff_sub] at hlead
    by_cases hzero : r.coeff (m.degree (r - r')) = 0
    · obtain ⟨g, hg, hle⟩ := hG' _ (hspan ▸ hr) hne'
      refine h'.irreducible _ (mem_support_iff.mpr fun hzero' => hlead ?_)
        ⟨g, hg, hle, (hunit' g hg).dvd⟩
      rw [hzero, hzero', sub_zero]
    · obtain ⟨g, hg, hle⟩ := hG _ hr hne'
      exact h.irreducible _ (mem_support_iff.mpr hzero) ⟨g, hg, hle, (hunit g hg).dvd⟩

end IsNormalForm

/-- A property of generators that stays when one of them is replaced by its normal form modulo the
others. -/
structure KeptByReduction (m : MonomialOrder σ) (Q : Set (MvPolynomial σ R) → Prop) : Prop where
  drop {G : Set (MvPolynomial σ R)} {f : MvPolynomial σ R} : IsNormalForm m G f 0 → f ≠ 0 →
    Q (insert f G) → Q G
  replace {G : Set (MvPolynomial σ R)} {f r : MvPolynomial σ R} : IsNormalForm m G f r → f ≠ 0 →
    r ≠ 0 → Q (insert f G) → Q (insert r G)

theorem keptByReduction_true :
    KeptByReduction m (fun _ => True : Set (MvPolynomial σ R) → Prop) :=
  ⟨fun _ _ _ => trivial, fun _ _ _ _ => trivial⟩

namespace KeptByReduction

variable {Q Q' : Set (MvPolynomial σ R) → Prop} (hQ : KeptByReduction m Q)
include hQ

theorem and (hQ' : KeptByReduction m Q') : KeptByReduction m fun G => Q G ∧ Q' G where
  drop h hf hG := ⟨hQ.drop h hf hG.1, hQ'.drop h hf hG.2⟩
  replace h hf hr hG := ⟨hQ.replace h hf hr hG.1, hQ'.replace h hf hr hG.2⟩

theorem imp (P : Prop) : KeptByReduction m fun G => P → Q G where
  drop h hf hG hP := hQ.drop h hf (hG hP)
  replace h hf hr hG hP := hQ.replace h hf hr (hG hP)

end KeptByReduction

theorem keptByReduction_isGroebner :
    KeptByReduction m (IsGroebner m : Set (MvPolynomial σ R) → Prop) where
  drop h hf hG := (h.isGroebner_of_eq_zero rfl hf hG).2
  replace h hf _ hG := h.isGroebner_insert hf hG

private theorem IsStrongGroebner.of_cancellable (h : IsStrongGroebner m (insert f G))
    (hf : Cancellable m G f (m.degree f)) :
    ∀ F ∈ Ideal.span (insert f G), F ≠ 0 → Cancellable m G F (m.degree F) := by
  intro F hF hne
  rcases cancellable_insert.mp (h F hF hne) with ⟨hle, hdvd⟩ | hG
  · obtain ⟨g, hg, hle', hdvd'⟩ := hf
    exact ⟨g, hg, hle'.trans hle, hdvd'.trans hdvd⟩
  · exact hG

private theorem IsNormalForm.coeff_degree_eq (h : IsNormalForm m G f r) (hr : r ≠ 0)
    (hG : IsStrongGroebner m (insert f G)) : r.coeff (m.degree f) = f.coeff (m.degree f) := by
  apply h.leading
  intro hf
  have hmem : r ∈ Ideal.span (insert f G) := by
    rw [← h.span_insert]
    exact Ideal.subset_span (Set.mem_insert r G)
  exact h.irreducible _ (m.degree_mem_support hr) (hG.of_cancellable hf r hmem hr)

theorem keptByReduction_isStrongGroebner :
    KeptByReduction m (IsStrongGroebner m : Set (MvPolynomial σ R) → Prop) where
  drop {G f} h hf hG := by
    have hcancel : Cancellable m G f (m.degree f) := by
      by_contra hno
      have hcoeff := h.leading hno
      rw [coeff_zero] at hcoeff
      exact m.coeff_degree_ne_zero_iff.mpr hf hcoeff.symm
    have hspan : Ideal.span G = Ideal.span (insert f G) := by
      rw [← h.span_insert, Ideal.span_insert_zero]
    intro F hF hne
    rw [hspan] at hF
    exact hG.of_cancellable hcancel F hF hne
  replace {G f r} h hf hr hG := by
    have hcoeff := h.coeff_degree_eq hr hG
    have hdeg := (h.degree_eq_of_coeff_eq hf hcoeff).2
    intro F hF hne
    rw [h.span_insert] at hF
    rw [cancellable_insert, hdeg, leadingCoeff, hdeg, hcoeff]
    exact cancellable_insert.mp (hG F hF hne)

end PolyIdeal
