import Mathlib.Data.List.Pairwise
import PolyIdeal.Proofs.Ideal.Criterion

/-!
# Reduced Groebner bases

Monic polynomials in descending order that form a Groebner basis and of which none has a monomial
that the leading monomial of another one divides. An ideal has at most one such list.
-/

namespace PolyIdeal

open MvPolynomial MonomialOrder

variable {σ R : Type} [CommRing R] {m : MonomialOrder σ} {I : Ideal (MvPolynomial σ R)}
  {F F' : List (MvPolynomial σ R)}

/-- The leading monomial of `g` divides no monomial of `f`. -/
def ReducedBy (m : MonomialOrder σ) (f g : MvPolynomial σ R) : Prop :=
  ∀ e ∈ f.support, ¬ m.degree g ≤ e

/-- Neither leading monomial divides a monomial of the other polynomial. -/
def Interreduced (m : MonomialOrder σ) (f g : MvPolynomial σ R) : Prop :=
  ReducedBy m f g ∧ ReducedBy m g f

instance : Std.Symm (Interreduced m : MvPolynomial σ R → MvPolynomial σ R → Prop) :=
  ⟨fun _ _ h => h.symm⟩

structure IsReducedGroebner (m : MonomialOrder σ) (I : Ideal (MvPolynomial σ R))
    (F : List (MvPolynomial σ R)) : Prop where
  span_eq : Ideal.span {f | f ∈ F} = I
  isGroebner : IsGroebner m {f | f ∈ F}
  monic : ∀ f ∈ F, m.leadingCoeff f = 1
  reduced : F.Pairwise (Interreduced m)
  sorted : F.Pairwise fun f g => m.degree g ≺[m] m.degree f

namespace IsReducedGroebner

private theorem mem_ideal (h : IsReducedGroebner m I F) {f : MvPolynomial σ R} (hf : f ∈ F) :
    f ∈ I := by
  rw [← h.span_eq]
  exact Ideal.subset_span hf

private theorem reducedBy (h : IsReducedGroebner m I F) {f g : MvPolynomial σ R} (hf : f ∈ F)
    (hg : g ∈ F) (hne : f ≠ g) : ReducedBy m f g :=
  (h.reduced.forall hf hg hne).1

variable [Nontrivial R]

private theorem degree_mem_support (h : IsReducedGroebner m I F) {f : MvPolynomial σ R}
    (hf : f ∈ F) : m.degree f ∈ f.support := by
  have hcoeff : f.coeff (m.degree f) = 1 := h.monic f hf
  rw [mem_support_iff, hcoeff]
  exact one_ne_zero

private theorem ne_zero (h : IsReducedGroebner m I F) {f : MvPolynomial σ R} (hf : f ∈ F) : f ≠ 0 :=
  support_nonempty.mp ⟨_, h.degree_mem_support hf⟩

omit [Nontrivial R] in
private theorem eq_degree_of_mem_support (h : IsReducedGroebner m I F) {f r : MvPolynomial σ R}
    (hf : f ∈ F) (hr : r ∈ I) (hr0 : r ≠ 0) (hmem : m.degree r ∈ f.support) :
    m.degree r = m.degree f := by
  obtain ⟨g, hg, hle⟩ := h.isGroebner r (h.span_eq ▸ hr) hr0
  have hgf : f = g := by
    by_contra hne
    exact h.reducedBy hf hg hne _ hmem hle
  subst hgf
  apply m.toSyn.injective
  exact le_antisymm (m.le_degree hmem) (m.toSyn_monotone hle)

private theorem exists_degree_eq (h : IsReducedGroebner m I F) (h' : IsReducedGroebner m I F')
    {f : MvPolynomial σ R} (hf : f ∈ F) : ∃ g ∈ F', m.degree g = m.degree f := by
  obtain ⟨g, hg, hle⟩ := h'.isGroebner f (h'.span_eq ▸ h.mem_ideal hf) (h.ne_zero hf)
  obtain ⟨f', hf', hle'⟩ := h.isGroebner g (h.span_eq ▸ h'.mem_ideal hg) (h'.ne_zero hg)
  have heq : f = f' := by
    by_contra hne
    exact h.reducedBy hf hf' hne _ (h.degree_mem_support hf) (hle'.trans hle)
  subst heq
  exact ⟨g, hg, le_antisymm hle hle'⟩

private theorem subset (h : IsReducedGroebner m I F) (h' : IsReducedGroebner m I F') : F ⊆ F' := by
  intro f hf
  obtain ⟨g, hg, hdeg⟩ := exists_degree_eq h h' hf
  -- The leading terms are the same, so the difference leads at another monomial of one of them.
  have hsub : f - g ∈ I := Ideal.sub_mem _ (h.mem_ideal hf) (h'.mem_ideal hg)
  have hcoeff : (f - g).coeff (m.degree f) = 0 := by
    have hone : g.coeff (m.degree f) = 1 := hdeg ▸ h'.monic g hg
    have hone' : f.coeff (m.degree f) = 1 := h.monic f hf
    rw [coeff_sub, hone, hone', sub_self]
  have hzero : f - g = 0 := by
    by_contra hne
    have hlead := m.degree_mem_support hne
    have hdeg' : m.degree (f - g) = m.degree f := by
      by_cases hmem : m.degree (f - g) ∈ f.support
      · exact h.eq_degree_of_mem_support hf hsub hne hmem
      · rw [← hdeg]
        refine h'.eq_degree_of_mem_support hg hsub hne ?_
        rw [mem_support_iff]
        intro hg0
        rw [mem_support_iff, coeff_sub, hg0, notMem_support_iff.mp hmem, sub_zero] at hlead
        exact hlead rfl
    rw [hdeg', mem_support_iff] at hlead
    exact hlead hcoeff
  rwa [sub_eq_zero.mp hzero]

omit [Nontrivial R] in
private theorem nodup (h : IsReducedGroebner m I F) : F.Nodup := by
  refine List.Pairwise.imp ?_ h.sorted
  rintro f g hlt rfl
  exact lt_irrefl _ hlt

omit [Nontrivial R] in
theorem nil : IsReducedGroebner m (⊥ : Ideal (MvPolynomial σ R)) [] where
  span_eq := by simp
  isGroebner := by
    intro f hf hne
    simp [hne] at hf
  monic := nofun
  reduced := .nil
  sorted := .nil

theorem eq_nil_iff (h : IsReducedGroebner m I F) : F = [] ↔ I = ⊥ := by
  constructor
  · rintro rfl
    rw [← h.span_eq, Ideal.span_eq_bot]
    intro f hf
    cases hf
  · rintro rfl
    rw [List.eq_nil_iff_forall_not_mem]
    exact fun f hf => h.ne_zero hf (Ideal.mem_bot.mp (h.mem_ideal hf))

/-- The reduced Groebner basis of an ideal is unique. -/
theorem unique (h : IsReducedGroebner m I F) (h' : IsReducedGroebner m I F') : F = F' := by
  have hperm : F.Perm F' := (List.perm_ext_iff_of_nodup h.nodup h'.nodup).mpr fun f =>
    ⟨fun hf => h.subset h' hf, fun hf => h'.subset h hf⟩
  refine hperm.eq_of_pairwise ?_ h.sorted h'.sorted
  intro f g _ _ hfg hgf
  exact absurd hgf (lt_asymm hfg)

end IsReducedGroebner

end PolyIdeal
