import Mathlib.Algebra.MvPolynomial.Rename
import PolyIdeal.Proofs.Ideal.ReducedBasis

/-!
# Renaming of variables

A bijection of the variables that carries one monomial order over to another carries leading terms
over to leading terms, and reduced Groebner bases to reduced Groebner bases.
-/

namespace PolyIdeal

open MvPolynomial MonomialOrder

variable {σ τ R : Type} [CommRing R] {m : MonomialOrder σ} {m' : MonomialOrder τ} {ρ : σ ≃ τ}
  {f g : MvPolynomial σ R} {d e : σ →₀ ℕ}

private theorem mapDomain_le_iff : d.mapDomain ρ ≤ e.mapDomain ρ ↔ d ≤ e := by
  simp only [Finsupp.le_def, Finsupp.mapDomain_equiv_apply]
  exact (ρ.symm.surjective.forall (p := fun i => d i ≤ e i)).symm

theorem mapDomain_sub (d e : σ →₀ ℕ) :
    (d - e).mapDomain ρ = d.mapDomain ρ - e.mapDomain ρ := by
  ext i
  simp only [Finsupp.mapDomain_equiv_apply, Finsupp.tsub_apply]

theorem exists_mapDomain (ρ : σ ≃ τ) (e : τ →₀ ℕ) : ∃ d : σ →₀ ℕ, d.mapDomain ρ = e :=
  (Finsupp.domCongr ρ).surjective e |>.imp fun d hd => by
    rw [← hd, Finsupp.domCongr_apply, Finsupp.equivMapDomain_eq_mapDomain]

theorem coeff_rename (f : MvPolynomial σ R) (d : σ →₀ ℕ) :
    (rename ρ f).coeff (d.mapDomain ρ) = f.coeff d :=
  coeff_rename_mapDomain ρ ρ.injective f d

theorem mapDomain_mem_support : d.mapDomain ρ ∈ (rename ρ f).support ↔ d ∈ f.support := by
  rw [mem_support_iff, mem_support_iff, coeff_rename]

theorem rename_ne_zero_iff : rename ρ f ≠ 0 ↔ f ≠ 0 :=
  (map_ne_zero_iff _ (rename_injective ρ ρ.injective))

/-- A bijection of the variables that respects monomial orders. -/
def Carries (ρ : σ ≃ τ) (m : MonomialOrder σ) (m' : MonomialOrder τ) : Prop :=
  ∀ d e : σ →₀ ℕ, m'.toSyn (d.mapDomain ρ) < m'.toSyn (e.mapDomain ρ) ↔ m.toSyn d < m.toSyn e

namespace Carries

variable (hρ : Carries ρ m m')
include hρ

theorem le_iff : m'.toSyn (d.mapDomain ρ) ≤ m'.toSyn (e.mapDomain ρ) ↔ m.toSyn d ≤ m.toSyn e := by
  rw [← not_lt, ← not_lt, hρ]

theorem degree_rename (f : MvPolynomial σ R) :
    m'.degree (rename ρ f) = (m.degree f).mapDomain ρ := by
  by_cases hf : f = 0
  · rw [hf, map_zero, m'.degree_zero, m.degree_zero, Finsupp.mapDomain_zero]
  · apply m'.toSyn.injective
    apply le_antisymm
    · apply m'.degree_le_iff.mpr
      intro e he
      obtain ⟨d, rfl⟩ := exists_mapDomain ρ e
      exact hρ.le_iff.mpr (m.le_degree (mapDomain_mem_support.mp he))
    · exact m'.le_degree (mapDomain_mem_support.mpr (m.degree_mem_support hf))

theorem leadingCoeff_rename (f : MvPolynomial σ R) :
    m'.leadingCoeff (rename ρ f) = m.leadingCoeff f := by
  rw [MonomialOrder.leadingCoeff, hρ.degree_rename, coeff_rename]
  rfl

theorem degree_rename_le_iff : m'.degree (rename ρ f) ≤ d.mapDomain ρ ↔ m.degree f ≤ d := by
  rw [hρ.degree_rename, mapDomain_le_iff]

private theorem reducedBy_rename (h : ReducedBy m f g) :
    ReducedBy m' (rename ρ f) (rename ρ g) := by
  intro e he
  obtain ⟨d, rfl⟩ := exists_mapDomain ρ e
  rw [hρ.degree_rename_le_iff]
  exact h d (mapDomain_mem_support.mp he)

private theorem isGroebner_rename {G : Set (MvPolynomial σ R)} (hG : IsGroebner m G) :
    IsGroebner m' (rename ρ '' G) := by
  intro F hF hne
  obtain ⟨f, rfl⟩ := (renameEquiv R ρ).surjective F
  have hmem : f ∈ Ideal.span G := by
    have hmap : rename ρ f ∈ Ideal.map (rename ρ : MvPolynomial σ R →ₐ[R] MvPolynomial τ R)
        (Ideal.span G) := by
      rwa [Ideal.map_span]
    obtain ⟨f', hf', heq⟩ := (Ideal.mem_map_iff_of_surjective _ (renameEquiv R ρ).surjective).mp
      hmap
    rwa [← rename_injective ρ ρ.injective heq]
  obtain ⟨g, hg, hle⟩ := hG f hmem (rename_ne_zero_iff.mp hne)
  refine ⟨_, Set.mem_image_of_mem _ hg, ?_⟩
  change m'.degree (rename ρ g) ≤ m'.degree (rename ρ f)
  rwa [hρ.degree_rename f, hρ.degree_rename_le_iff]

theorem isReducedGroebner_rename {I : Ideal (MvPolynomial σ R)} {F : List (MvPolynomial σ R)}
    (hF : IsReducedGroebner m I F) :
    IsReducedGroebner m' (I.map (rename ρ : MvPolynomial σ R →ₐ[R] MvPolynomial τ R))
      (F.map (rename ρ)) := by
  have himage : {G | G ∈ F.map (rename ρ)} = rename ρ '' {f | f ∈ F} := by
    ext G
    simp only [Set.mem_ofPred_eq, List.mem_map, Set.mem_image]
  refine ⟨?_, ?_, ?_, ?_, ?_⟩
  · rw [himage, ← Ideal.map_span, hF.span_eq]
  · rw [himage]
    exact hρ.isGroebner_rename hF.isGroebner
  · intro G hG
    obtain ⟨f, hf, rfl⟩ := List.mem_map.mp hG
    rw [hρ.leadingCoeff_rename, hF.monic f hf]
  · exact List.pairwise_map.mpr (hF.reduced.imp fun h =>
      ⟨hρ.reducedBy_rename h.1, hρ.reducedBy_rename h.2⟩)
  · refine List.pairwise_map.mpr (hF.sorted.imp fun h => ?_)
    rw [hρ.degree_rename, hρ.degree_rename]
    exact (hρ _ _).mpr h

end Carries

end PolyIdeal
