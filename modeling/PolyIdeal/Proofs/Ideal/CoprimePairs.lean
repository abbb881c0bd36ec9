import Mathlib.RingTheory.Ideal.Nonunits
import Mathlib.RingTheory.Ideal.Quotient.Basic
import PolyIdeal.Proofs.Ideal.Criterion

/-!
# Pairs with coprime leading monomials

A pair with coprime leading monomials joins whatever its leading coefficients are, so that elements
whose leading coefficients have no inverse may be left in a Groebner basis. Modulo a maximal ideal
with such a coefficient the highest of these elements is a combination of the others, or of monic
members of the ideal in their place, if there are any. But then a monic member in the place of the
highest one leads where no other element does.
-/

namespace PolyIdeal

open MvPolynomial MonomialOrder

variable {σ R : Type} [CommRing R] {m : MonomialOrder σ} {f g : MvPolynomial σ R}

section Residue

variable (P : Ideal R)

/-- The polynomial modulo an ideal of its coefficients. -/
noncomputable abbrev residue : MvPolynomial σ R →+* MvPolynomial σ (R ⧸ P) :=
  map (Ideal.Quotient.mk P)

variable {P}

private theorem degree_residue (hf : m.leadingCoeff f ∉ P) :
    m.degree (residue P f) = m.degree f := by
  have hlead : (residue P f).coeff (m.degree f) ≠ 0 := by
    rw [coeff_map, ne_eq, Ideal.Quotient.eq_zero_iff_mem]
    exact hf
  apply m.toSyn.injective
  apply le_antisymm
  · apply m.degree_le_iff.mpr
    intro e he
    exact m.le_degree (support_map_subset _ _ he)
  · exact m.le_degree (mem_support_iff.mpr hlead)

private theorem leadingCoeff_residue (hf : m.leadingCoeff f ∉ P) :
    m.leadingCoeff (residue P f) = Ideal.Quotient.mk P (m.leadingCoeff f) := by
  rw [leadingCoeff, degree_residue hf, coeff_map]
  rfl

private theorem residue_ne_zero (hf : m.leadingCoeff f ∉ P) : residue P f ≠ 0 := by
  rw [← m.leadingCoeff_ne_zero_iff, leadingCoeff_residue hf, ne_eq,
    Ideal.Quotient.eq_zero_iff_mem]
  exact hf

private theorem residue_sPolynomial (hf : m.leadingCoeff f ∉ P) (hg : m.leadingCoeff g ∉ P) :
    residue P (m.sPolynomial f g) = m.sPolynomial (residue P f) (residue P g) := by
  rw [sPolynomial_def, sPolynomial_def, degree_residue hf, degree_residue hg,
    leadingCoeff_residue hf, leadingCoeff_residue hg, map_sub, map_mul, map_mul, map_monomial,
    map_monomial]

variable {G : Set (MvPolynomial σ R)} {H : Set (MvPolynomial σ (R ⧸ P))} {s : Set m.syn}

private theorem residue_mem_boundedSpan (hs : IsLowerSet s) (hf : f ∈ boundedSpan m G s)
    (hG : ∀ p ∈ G, residue P p ∈ boundedSpan m H (Set.Iic (m.toSyn (m.degree p)))) :
    residue P f ∈ boundedSpan m H s := by
  induction hf using Submodule.span_induction with
  | mem f hf =>
    obtain ⟨u, p, hp, hu, rfl⟩ := hf
    rw [map_mul, map_monomial, map_one]
    apply mul_mem_boundedSpan_of_mem (hG p hp)
    intro v hv e he
    obtain rfl : v = u := by
      have := Finsupp.support_single_subset hv
      simpa using this
    rw [map_add] at hu
    exact hs (add_le_add_right (Set.mem_Iic.mp he) _) hu
  | zero =>
    rw [map_zero]
    exact Submodule.zero_mem _
  | add f f' _ _ hf hf' =>
    rw [map_add]
    exact Submodule.add_mem _ hf hf'
  | smul c f _ hf =>
    rw [smul_eq_C_mul, map_mul, map_C, ← smul_eq_C_mul]
    exact Submodule.smul_mem _ _ hf

private theorem joins_residue (hf : m.leadingCoeff f ∉ P) (hg : m.leadingCoeff g ∉ P)
    (hjoins : Joins m G f g)
    (hG : ∀ p ∈ G, residue P p ∈ boundedSpan m H (Set.Iic (m.toSyn (m.degree p)))) :
    Joins m H (residue P f) (residue P g) := by
  rw [Joins, ← residue_sPolynomial hf hg, degree_residue hf, degree_residue hg]
  exact residue_mem_boundedSpan (isLowerSet_Iio _) hjoins hG

/-- Modulo a maximal ideal a polynomial is a combination if its leading term can be cancelled. -/
private theorem residue_mem_of_sPolynomial [P.IsMaximal] (hg : m.leadingCoeff g ∉ P)
    (hle : m.degree g ≤ m.degree f) (hs : residue P (m.sPolynomial f g) ∈ boundedSpan m H s)
    (hmul : residue P (monomial (m.degree f - m.degree g) (m.leadingCoeff f) * g) ∈
      boundedSpan m H s) : residue P f ∈ boundedSpan m H s := by
  have hscaled : C (m.leadingCoeff g) * f = m.sPolynomial f g +
      monomial (m.degree f - m.degree g) (m.leadingCoeff f) * g := by
    rw [sPolynomial_def, sup_eq_left.mpr hle, tsub_self, monomial_zero', sub_add_cancel]
  have hsum := Submodule.add_mem _ hs hmul
  rw [← map_add, ← hscaled, map_mul, map_C, ← smul_eq_C_mul] at hsum
  obtain ⟨b, hb⟩ := Ideal.Quotient.exists_inv (I := P)
    (a := Ideal.Quotient.mk P (m.leadingCoeff g))
    (by rwa [ne_eq, Ideal.Quotient.eq_zero_iff_mem])
  have hmem := Submodule.smul_mem _ b hsum
  rwa [smul_smul, mul_comm b, hb, one_smul] at hmem

end Residue

/-- Members of an ideal in the places of its generators, with leading coefficients that do not
vanish modulo an ideal of coefficients. -/
private structure IsSubstitution (m : MonomialOrder σ) (P : Ideal R) (L : Set (MvPolynomial σ R))
    (φ : MvPolynomial σ R → MvPolynomial σ R) : Prop where
  mem : ∀ f ∈ L, φ f ∈ Ideal.span L
  degree_eq : ∀ f ∈ L, m.degree (φ f) = m.degree f
  leadingCoeff_notMem : ∀ f ∈ L, m.leadingCoeff (φ f) ∉ P
  eq_self : ∀ f ∈ L, m.leadingCoeff f ∉ P → φ f = f

section Substitution

variable {P : Ideal R} {L : Set (MvPolynomial σ R)} {φ : MvPolynomial σ R → MvPolynomial σ R}

/-- The residues of all but the highest generator that vanishes. -/
private def substituted (P : Ideal R) (L : Set (MvPolynomial σ R))
    (φ : MvPolynomial σ R → MvPolynomial σ R) (r : MvPolynomial σ R) :
    Set (MvPolynomial σ (R ⧸ P)) :=
  (fun f => residue P (φ f)) '' (L \ {r})

namespace IsSubstitution

variable (hφ : IsSubstitution m P L φ) (hL : IsGroebner m L) {r : MvPolynomial σ R}
include hφ

private theorem degree_residue {l : MvPolynomial σ R} (hl : l ∈ L) :
    m.degree (residue P (φ l)) = m.degree l := by
  rw [PolyIdeal.degree_residue (hφ.leadingCoeff_notMem l hl), hφ.degree_eq l hl]

variable [P.IsMaximal]

include hL in
private theorem residue_mem_of_lt (hf : f ∈ Ideal.span L) (hlt : m.degree f ≺[m] m.degree r) :
    residue P f ∈ boundedSpan m (substituted P L φ r) (Set.Iic (m.toSyn (m.degree f))) := by
  induction hd : m.toSyn (m.degree f) using WellFoundedLT.induction generalizing f with
  | ind d ih =>
    subst hd
    by_cases hf0 : f = 0
    · rw [hf0, map_zero]
      exact Submodule.zero_mem _
    · obtain ⟨l, hl, hle⟩ := hL f hf hf0
      have hlr : l ≠ r := by
        rintro rfl
        exact not_le_of_gt hlt (m.toSyn_monotone hle)
      have hle' : m.degree (φ l) ≤ m.degree f := hφ.degree_eq l hl ▸ hle
      have hmem : residue P (φ l) ∈ substituted P L φ r := ⟨l, ⟨hl, hlr⟩, rfl⟩
      apply residue_mem_of_sPolynomial (hφ.leadingCoeff_notMem l hl) hle'
      · rcases m.degree_sPolynomial f (φ l) with hbelow | hzero
        · rw [sup_eq_left.mpr hle'] at hbelow
          have hs : m.sPolynomial f (φ l) ∈ Ideal.span L :=
            Ideal.sub_mem _ (Ideal.mul_mem_left _ _ hf) (Ideal.mul_mem_left _ _ (hφ.mem l hl))
          exact boundedSpan_Iic_mono hbelow.le (ih _ hbelow hs (hbelow.trans hlt) rfl)
        · rw [hzero, map_zero]
          exact Submodule.zero_mem _
      · rw [map_mul, map_monomial]
        apply monomial_mul_mem_boundedSpan hmem
        rw [hφ.degree_eq l hl, hφ.degree_residue hl, tsub_add_cancel_of_le hle]
        exact Set.mem_Iic.mpr le_rfl

variable (hmax : ∀ l ∈ L, m.leadingCoeff l ∈ P → m.degree l ≼[m] m.degree r)
  (hr : m.leadingCoeff r ∈ P)
include hL hmax hr

/-- A generator that vanishes is a combination of what is below it. -/
private theorem residue_mem {l : MvPolynomial σ R} (hl : l ∈ L) :
    residue P l ∈ boundedSpan m (substituted P L φ r) (Set.Iic (m.toSyn (m.degree l))) := by
  by_cases hlP : m.leadingCoeff l ∈ P
  · have hdeg := hφ.degree_eq l hl
    apply residue_mem_of_sPolynomial (hφ.leadingCoeff_notMem l hl) hdeg.le
    · rcases m.degree_sPolynomial l (φ l) with hbelow | hzero
      · rw [hdeg, sup_idem] at hbelow
        have hs : m.sPolynomial l (φ l) ∈ Ideal.span L :=
          Ideal.sub_mem _ (Ideal.mul_mem_left _ _ (Ideal.subset_span hl))
            (Ideal.mul_mem_left _ _ (hφ.mem l hl))
        exact boundedSpan_Iic_mono hbelow.le
          (hφ.residue_mem_of_lt hL hs (hbelow.trans_le (hmax l hl hlP)))
      · rw [hzero, map_zero]
        exact Submodule.zero_mem _
    · rw [map_mul, map_monomial, Ideal.Quotient.eq_zero_iff_mem.mpr hlP, monomial_zero, zero_mul]
      exact Submodule.zero_mem _
  · have hlr : l ≠ r := by
      rintro rfl
      exact hlP hr
    apply mem_boundedSpan_self
    · exact ⟨l, ⟨hl, hlr⟩, congrArg (residue P) (hφ.eq_self l hl hlP)⟩
    · rw [PolyIdeal.degree_residue hlP]
      exact Set.mem_Iic.mpr le_rfl

private theorem isGroebner_substituted
    (hpairs : ∀ f ∈ L, ∀ g ∈ L, f ≠ g → LeadCoprime m f g ∨
      Joins m L f g ∧ m.leadingCoeff f ∉ P ∧ m.leadingCoeff g ∉ P) :
    IsGroebner m (substituted P L φ r) := by
  have : IsDomain (R ⧸ P) := Ideal.Quotient.isDomain P
  apply isGroebner_of_joins
  · rintro _ ⟨f, ⟨hf, hfr⟩, rfl⟩ _ ⟨g, ⟨hg, hgr⟩, rfl⟩
    by_cases hfg : f = g
    · rw [hfg]
      exact joins_self _
    · rcases hpairs f hf g hg hfg with hcoprime | ⟨hjoins, hfP, hgP⟩
      · have hcoprime' : LeadCoprime m (residue P (φ f)) (residue P (φ g)) := by
          rw [LeadCoprime, hφ.degree_residue hf, hφ.degree_residue hg]
          exact hcoprime
        exact hcoprime'.joins ⟨f, ⟨hf, hfr⟩, rfl⟩ ⟨g, ⟨hg, hgr⟩, rfl⟩
      · simp only [hφ.eq_self f hf hfP, hφ.eq_self g hg hgP]
        exact joins_residue hfP hgP hjoins fun p hp => hφ.residue_mem hL hmax hr hp
  · rintro _ ⟨f, ⟨hf, -⟩, rfl⟩
    exact residue_ne_zero (hφ.leadingCoeff_notMem f hf)

private theorem exists_degree_le
    (hpairs : ∀ f ∈ L, ∀ g ∈ L, f ≠ g → LeadCoprime m f g ∨
      Joins m L f g ∧ m.leadingCoeff f ∉ P ∧ m.leadingCoeff g ∉ P) (hrL : r ∈ L) :
    ∃ l ∈ L, l ≠ r ∧ m.degree l ≤ m.degree r := by
  have hspan : Ideal.span L ≤ (Ideal.span (substituted P L φ r)).comap (residue P) :=
    Ideal.span_le.mpr fun l hl => mem_ideal_of_mem_boundedSpan (hφ.residue_mem hL hmax hr hl)
  obtain ⟨_, ⟨l, ⟨hl, hlr⟩, rfl⟩, hle⟩ := hφ.isGroebner_substituted hL hmax hr hpairs _
    (hspan (hφ.mem r hrL)) (residue_ne_zero (hφ.leadingCoeff_notMem r hrL))
  rw [hφ.degree_residue hl, hφ.degree_residue hrL] at hle
  exact ⟨l, hl, hlr, hle⟩

end IsSubstitution

end Substitution

section Units

variable {L H : Set (MvPolynomial σ R)} (hH : IsGroebner m H)
  (hunit : ∀ g ∈ H, IsUnit (m.leadingCoeff g))
include hH hunit

private theorem exists_isUnit_leadingCoeff [Nontrivial R] (hf : f ∈ Ideal.span H) (hne : f ≠ 0) :
    ∃ g ∈ Ideal.span H, m.degree g = m.degree f ∧ IsUnit (m.leadingCoeff g) := by
  obtain ⟨g, hg, hle⟩ := hH f hf hne
  have hregular : IsRegular (m.leadingCoeff (monomial (m.degree f - m.degree g) (1 : R))) := by
    rw [leadingCoeff_monomial]
    exact isRegular_one
  refine ⟨monomial (m.degree f - m.degree g) 1 * g, Ideal.mul_mem_left _ _ (Ideal.subset_span hg),
    ?_, ?_⟩
  · have hg0 : g ≠ 0 := m.leadingCoeff_ne_zero_iff.mp (hunit g hg).ne_zero
    classical
    rw [m.degree_mul_of_isRegular_left hregular hg0, degree_monomial, if_neg one_ne_zero,
      tsub_add_cancel_of_le hle]
  · rw [m.leadingCoeff_mul_of_isRegular_left hregular, leadingCoeff_monomial, one_mul]
    exact hunit g hg

private theorem degree_ne_zero_of_ne_top (hproper : Ideal.span H ≠ ⊤) (hf : f ∈ Ideal.span H)
    (hne : f ≠ 0) : m.degree f ≠ 0 := by
  intro hdeg
  obtain ⟨g, hg, hle⟩ := hH f hf hne
  rw [hdeg, nonpos_iff_eq_zero] at hle
  have hconst := m.eq_C_of_degree_eq_zero hle
  apply hproper
  apply Ideal.eq_top_of_isUnit_mem _ (Ideal.subset_span hg)
  rw [hconst]
  exact (hunit g hg).map C

/-- Polynomials of which every two join with inverses or have coprime leading monomials have
invertible leading coefficients if their ideal is proper and has a Groebner basis with such. -/
theorem isUnit_leadingCoeff_of_pairs [IsDomain R] (hL : IsGroebner m L) (hfinite : L.Finite)
    (hne : ∀ f ∈ L, f ≠ 0)
    (hpairs : ∀ f ∈ L, ∀ g ∈ L, f ≠ g → LeadCoprime m f g ∨
      Joins m L f g ∧ IsUnit (m.leadingCoeff f) ∧ IsUnit (m.leadingCoeff g))
    (hspan : Ideal.span L = Ideal.span H) (hproper : Ideal.span L ≠ ⊤) (hf : f ∈ L) :
    IsUnit (m.leadingCoeff f) := by
  by_contra hfu
  obtain ⟨P, hP, hfP⟩ := exists_max_ideal_of_mem_nonunits hfu
  have hnotMem {c : R} (hc : IsUnit c) : c ∉ P := fun hcP => hP.ne_top (P.eq_top_of_isUnit_mem hcP hc)
  -- Monic members replace all that vanish modulo `P`, but it is the highest of them that the others
  -- make redundant.
  obtain ⟨r, ⟨hrL, hr⟩, hmax⟩ := Set.exists_max_image {l ∈ L | m.leadingCoeff l ∈ P}
    (fun l => m.toSyn (m.degree l)) (hfinite.subset fun _ hl => hl.1) ⟨f, hf, hfP⟩
  have hmem {l : MvPolynomial σ R} (hl : l ∈ L) : l ∈ Ideal.span H := hspan ▸ Ideal.subset_span hl
  choose! monic hmonic hdeg hmonicUnit using
    fun l (hl : l ∈ L) => exists_isUnit_leadingCoeff hH hunit (hmem hl) (hne l hl)
  classical
  have hφ : IsSubstitution m P L fun l => if m.leadingCoeff l ∈ P then monic l else l := by
    constructor
    · intro l hl
      split
      · exact hspan ▸ hmonic l hl
      · exact Ideal.subset_span hl
    · intro l hl
      split
      · exact hdeg l hl
      · rfl
    · intro l hl
      split
      · exact hnotMem (hmonicUnit l hl)
      · assumption
    · exact fun l _ hlP => if_neg hlP
  have hpairs' (f : MvPolynomial σ R) (hf : f ∈ L) (g : MvPolynomial σ R) (hg : g ∈ L)
      (hfg : f ≠ g) : LeadCoprime m f g ∨
        Joins m L f g ∧ m.leadingCoeff f ∉ P ∧ m.leadingCoeff g ∉ P :=
    (hpairs f hf g hg hfg).imp_right fun ⟨hjoins, hfu, hgu⟩ => ⟨hjoins, hnotMem hfu, hnotMem hgu⟩
  obtain ⟨l, hl, hlr, hle⟩ := hφ.exists_degree_le hL (fun l hl hlP => hmax l ⟨hl, hlP⟩) hr hpairs' hrL
  -- A pair with `r` has not been joined, so that no other leading monomial can divide the one of `r`.
  have hcoprime := (hpairs' l hl r hrL hlr).resolve_right fun h => h.2.2 hr
  exact degree_ne_zero_of_ne_top hH hunit (hspan ▸ hproper) (hmem hl) (hne l hl)
    (hcoprime.eq_zero_of_le hle)

end Units

end PolyIdeal
