import PolyIdeal.Proofs.Ideal.Criterion

/-!
# Normal forms

What the steps of a reduction keep and what a normal form achieves, whatever divisors are chosen.
Reducing one element of a Groebner basis modulo the others leaves a Groebner basis of the same
ideal.
-/

namespace PolyIdeal

open MvPolynomial MonomialOrder

variable {σ R : Type} [CommRing R] {m : MonomialOrder σ} {G : Set (MvPolynomial σ R)}
  {f r : MvPolynomial σ R}

/-- The term at a monomial is a multiple of a leading term. -/
def Cancellable (m : MonomialOrder σ) (G : Set (MvPolynomial σ R)) (f : MvPolynomial σ R)
    (d : σ →₀ ℕ) : Prop :=
  ∃ g ∈ G, m.degree g ≤ d ∧ m.leadingCoeff g ∣ f.coeff d

/-- No term is a multiple of a leading term. -/
def Irreducible (m : MonomialOrder σ) (G : Set (MvPolynomial σ R)) (r : MvPolynomial σ R) : Prop :=
  ∀ e ∈ r.support, ¬ Cancellable m G r e

/-- The term at a monomial is cancelled by a multiple. -/
def Cancels (m : MonomialOrder σ) (G : Set (MvPolynomial σ R)) (f : MvPolynomial σ R)
    (d : σ →₀ ℕ) (f' : MvPolynomial σ R) : Prop :=
  ∃ g ∈ G, m.degree g ≤ d ∧ ∃ q, q * m.leadingCoeff g = f.coeff d ∧
    f' = f - monomial (d - m.degree g) q * g

structure IsNormalForm (m : MonomialOrder σ) (G : Set (MvPolynomial σ R))
    (f r : MvPolynomial σ R) : Prop where
  irreducible : Irreducible m G r
  /-- Reduction subtracts no multiple that leads beyond the polynomial. -/
  sub_mem : ∀ s, IsLowerSet s → (∀ e ∈ f.support, m.toSyn e ∈ s) → f - r ∈ boundedSpan m G s
  /-- The highest monomial where they differ is gone. -/
  eq_or_lower : r = f ∨
    ∃ d ∈ f.support, r.coeff d = 0 ∧ ∀ e, m.toSyn d < m.toSyn e → r.coeff e = f.coeff e
  /-- The leading term stays unless it is a multiple of a leading term. -/
  leading : ¬ Cancellable m G f (m.degree f) → r.coeff (m.degree f) = f.coeff (m.degree f)

/-- A normal form that changes only what lies below a bound. -/
structure IsNormalFormBelow (m : MonomialOrder σ) (G : Set (MvPolynomial σ R)) (b : m.syn)
    (f r : MvPolynomial σ R) : Prop where
  irreducible : Irreducible m G r
  sub_mem : ∀ s, IsLowerSet s → (∀ e ∈ f.support, m.toSyn e ∈ s) → f - r ∈ boundedSpan m G s
  coeff_eq : ∀ e, b ≤ m.toSyn e → r.coeff e = f.coeff e

theorem cancellable_insert {g : MvPolynomial σ R} {d : σ →₀ ℕ} :
    Cancellable m (insert g G) f d ↔
      (m.degree g ≤ d ∧ m.leadingCoeff g ∣ f.coeff d) ∨ Cancellable m G f d := by
  simp only [Cancellable, Set.exists_mem_insert]

theorem cancellable_singleton {g : MvPolynomial σ R} {d : σ →₀ ℕ} :
    Cancellable m {g} f d ↔ m.degree g ≤ d ∧ m.leadingCoeff g ∣ f.coeff d := by
  simp only [Cancellable, Set.mem_singleton_iff, exists_eq_left]

theorem Irreducible.mono {H : Set (MvPolynomial σ R)} (h : Irreducible m H r) (hGH : G ⊆ H) :
    Irreducible m G r := by
  rintro e he ⟨g, hg, hcancel⟩
  exact h e he ⟨g, hGH hg, hcancel⟩

theorem Cancels.insert {d : σ →₀ ℕ} {f' : MvPolynomial σ R} (h : Cancels m G f d f')
    (g : MvPolynomial σ R) : Cancels m (insert g G) f d f' := by
  obtain ⟨g', hg', hcancel⟩ := h
  exact ⟨g', Set.mem_insert_of_mem g hg', hcancel⟩

namespace Cancels

variable {d : σ →₀ ℕ} {f' : MvPolynomial σ R} (h : Cancels m G f d f')
include h

theorem cancellable : Cancellable m G f d := by
  obtain ⟨g, hg, hle, q, hq, -⟩ := h
  exact ⟨g, hg, hle, Dvd.intro_left q hq⟩

private theorem sub_mem {s : Set m.syn} (hd : m.toSyn d ∈ s) : f - f' ∈ boundedSpan m G s := by
  obtain ⟨g, hg, hle, q, -, rfl⟩ := h
  rw [sub_sub_cancel]
  apply monomial_mul_mem_boundedSpan hg
  rwa [tsub_add_cancel_of_le hle]

theorem coeff_of_lt {e : σ →₀ ℕ} (he : m.toSyn d < m.toSyn e) : f'.coeff e = f.coeff e := by
  by_contra hne
  have hsub : (f - f').coeff e ≠ 0 := by
    rw [coeff_sub]
    exact sub_ne_zero.mpr (Ne.symm hne)
  have hmem := h.sub_mem (s := Set.Iic (m.toSyn d)) (Set.mem_Iic.mpr le_rfl)
  exact not_le_of_gt he (toSyn_mem_of_mem_boundedSpan (isLowerSet_Iic _) hmem hsub)

theorem coeff_self : f'.coeff d = 0 := by
  obtain ⟨g, -, hle, q, hq, rfl⟩ := h
  rw [coeff_sub, coeff_monomial_mul', if_pos tsub_le_self, tsub_tsub_cancel_of_le hle]
  exact sub_eq_zero.mpr hq.symm

private theorem toSyn_mem {s : Set m.syn} (hs : IsLowerSet s) (hf : ∀ e ∈ f.support, m.toSyn e ∈ s)
    (hd : d ∈ f.support) : ∀ e ∈ f'.support, m.toSyn e ∈ s := by
  intro e he
  rcases lt_or_ge (m.toSyn d) (m.toSyn e) with hlt | hle
  · apply hf
    rwa [mem_support_iff, ← h.coeff_of_lt hlt, ← mem_support_iff]
  · exact hs hle (hf d hd)

/-- What cannot be cancelled above the cancelled monomial still cannot be. -/
theorem not_cancellable (hf : ∀ e ∈ f.support, m.toSyn d < m.toSyn e → ¬ Cancellable m G f e) :
    ∀ e ∈ f'.support, m.toSyn d ≤ m.toSyn e → ¬ Cancellable m G f' e := by
  intro e he hle
  have hne : d ≠ e := by
    rintro rfl
    exact mem_support_iff.mp he h.coeff_self
  have hlt : m.toSyn d < m.toSyn e :=
    lt_of_le_of_ne hle fun heq => hne (m.toSyn.injective heq)
  rw [mem_support_iff, h.coeff_of_lt hlt] at he
  rw [Cancellable, h.coeff_of_lt hlt]
  exact hf e (mem_support_iff.mpr he) hlt

section

variable (hd : d ∈ f.support) (hr : IsNormalFormBelow m G (m.toSyn d) f' r)
include hd hr

private theorem sub_mem_of_below {s : Set m.syn} (hs : IsLowerSet s)
    (hf : ∀ e ∈ f.support, m.toSyn e ∈ s) : f - r ∈ boundedSpan m G s := by
  rw [← sub_add_sub_cancel f f' r]
  exact Submodule.add_mem _ (h.sub_mem (hf d hd)) (hr.sub_mem s hs (h.toSyn_mem hs hf hd))

theorem isNormalFormBelow {b : m.syn} (hb : m.toSyn d < b) : IsNormalFormBelow m G b f r where
  irreducible := hr.irreducible
  sub_mem _ hs hf := sub_mem_of_below h hd hr hs hf
  coeff_eq e he := by
    have hlt := lt_of_lt_of_le hb he
    rw [hr.coeff_eq e hlt.le, h.coeff_of_lt hlt]

theorem isNormalForm : IsNormalForm m G f r where
  irreducible := hr.irreducible
  sub_mem _ hs hf := sub_mem_of_below h hd hr hs hf
  eq_or_lower := by
    refine .inr ⟨d, hd, ?_, fun e he => ?_⟩
    · rw [hr.coeff_eq d le_rfl, h.coeff_self]
    · rw [hr.coeff_eq e he.le, h.coeff_of_lt he]
  leading hno := by
    have hlt : m.toSyn d < m.toSyn (m.degree f) := by
      refine lt_of_le_of_ne (m.le_degree hd) fun heq => hno ?_
      rw [← m.toSyn.injective heq]
      exact h.cancellable
    rw [hr.coeff_eq _ hlt.le, h.coeff_of_lt hlt]

end

end Cancels

namespace Irreducible

variable (h : Irreducible m G f)
include h

theorem isNormalFormBelow (b : m.syn) : IsNormalFormBelow m G b f f where
  irreducible := h
  sub_mem s _ _ := by
    rw [sub_self]
    exact Submodule.zero_mem _
  coeff_eq _ _ := rfl

theorem isNormalForm : IsNormalForm m G f f where
  irreducible := h
  sub_mem s _ _ := by
    rw [sub_self]
    exact Submodule.zero_mem _
  eq_or_lower := .inl rfl
  leading _ := rfl

end Irreducible

namespace IsNormalForm

variable (h : IsNormalForm m G f r)
include h

private theorem sub_mem_degree : f - r ∈ boundedSpan m G (Set.Iic (m.toSyn (m.degree f))) :=
  h.sub_mem _ (isLowerSet_Iic _) fun _ he => m.le_degree he

theorem sub_mem_ideal : f - r ∈ Ideal.span G :=
  mem_ideal_of_mem_boundedSpan h.sub_mem_degree

theorem mem_ideal_iff : r ∈ Ideal.span G ↔ f ∈ Ideal.span G := by
  constructor
  · intro hr
    rw [← sub_add_cancel f r]
    exact Ideal.add_mem _ h.sub_mem_ideal hr
  · intro hf
    rw [← sub_sub_cancel f r]
    exact Ideal.sub_mem _ hf h.sub_mem_ideal

theorem toSyn_mem {s : Set m.syn} (hs : IsLowerSet s) (hf : ∀ e ∈ f.support, m.toSyn e ∈ s)
    {e : σ →₀ ℕ} (he : e ∈ r.support) : m.toSyn e ∈ s := by
  by_cases hfe : f.coeff e = 0
  · apply toSyn_mem_of_mem_boundedSpan hs (h.sub_mem s hs hf)
    rw [coeff_sub, hfe, zero_sub]
    exact neg_ne_zero.mpr (mem_support_iff.mp he)
  · exact hf e (mem_support_iff.mpr hfe)

private theorem exists_degree_le_of_eq_zero (hr : r = 0) (hf : f ≠ 0) :
    ∃ g ∈ G, m.degree g ≤ m.degree f := by
  have hmem := h.sub_mem_degree
  rw [hr, sub_zero] at hmem
  exact exists_degree_le hf hmem

theorem degree_eq_of_coeff_eq (hf : f ≠ 0)
    (hcoeff : r.coeff (m.degree f) = f.coeff (m.degree f)) :
    r ≠ 0 ∧ m.degree r = m.degree f := by
  have hmem : m.degree f ∈ r.support := by
    rw [mem_support_iff, hcoeff]
    exact m.coeff_degree_ne_zero_iff.mpr hf
  have hne : r ≠ 0 := support_nonempty.mp ⟨_, hmem⟩
  refine ⟨hne, m.toSyn.injective (le_antisymm ?_ (m.le_degree hmem))⟩
  exact h.toSyn_mem (isLowerSet_Iic _) (fun e he => m.le_degree he) (m.degree_mem_support hne)

private theorem degree_eq (hf : f ≠ 0) (hG : ∀ g ∈ G, ¬ m.degree g ≤ m.degree f) :
    r ≠ 0 ∧ m.degree r = m.degree f := by
  refine h.degree_eq_of_coeff_eq hf (h.leading ?_)
  rintro ⟨g, hg, hle, -⟩
  exact hG g hg hle

/-- A pair whose s-polynomial has been reduced joins once the remainder is there. -/
theorem joins_insert {p q : MvPolynomial σ R} {c : R} (hc : IsUnit c)
    (hf : f = c • m.sPolynomial p q) : Joins m (insert r G) p q := by
  have hbound (e : σ →₀ ℕ) (he : e ∈ f.support) :
      m.toSyn e ∈ Set.Iio (m.toSyn (m.degree p ⊔ m.degree q)) :=
    toSyn_lt_of_mem_support_sPolynomial (hf ▸ he)
  have hmono := boundedSpan_mono (m := m) (Set.subset_insert r G)
    (le_refl (Set.Iio (m.toSyn (m.degree p ⊔ m.degree q))))
  rw [Joins, ← Submodule.smul_mem_iff_of_isUnit _ hc, ← hf, ← sub_add_cancel f r]
  refine Submodule.add_mem _ (hmono (h.sub_mem _ (isLowerSet_Iio _) hbound)) ?_
  by_cases hr : r = 0
  · rw [hr]
    exact Submodule.zero_mem _
  · apply mem_boundedSpan_self (Set.mem_insert r G)
    exact h.toSyn_mem (isLowerSet_Iio _) hbound (m.degree_mem_support hr)

theorem span_insert : Ideal.span (insert r G) = Ideal.span (insert f G) := by
  have hsub := h.sub_mem_ideal
  apply le_antisymm <;> refine Ideal.span_le.mpr (Set.insert_subset ?_ ?_)
  · have hmem := Ideal.span_mono (Set.subset_insert f G) hsub
    have hf : f ∈ Ideal.span (insert f G) := Ideal.subset_span (Set.mem_insert f G)
    rw [← sub_sub_cancel f r]
    exact Ideal.sub_mem _ hf hmem
  · exact (Set.subset_insert f G).trans Ideal.subset_span
  · have hmem := Ideal.span_mono (Set.subset_insert r G) hsub
    have hr : r ∈ Ideal.span (insert r G) := Ideal.subset_span (Set.mem_insert r G)
    rw [← sub_add_cancel f r]
    exact Ideal.add_mem _ hmem hr
  · exact (Set.subset_insert r G).trans Ideal.subset_span

theorem isGroebner_insert (hf : f ≠ 0) (hG : IsGroebner m (insert f G)) :
    IsGroebner m (insert r G) := by
  rw [IsGroebner, h.span_insert]
  intro F hF hne
  obtain ⟨g, hg, hle⟩ := hG F hF hne
  rcases Set.mem_insert_iff.mp hg with rfl | hg
  · by_cases hall : ∀ g' ∈ G, ¬ m.degree g' ≤ m.degree g
    · exact ⟨r, Set.mem_insert r G, (h.degree_eq hf hall).2.le.trans hle⟩
    · push Not at hall
      obtain ⟨g', hg', hle'⟩ := hall
      exact ⟨g', Set.mem_insert_of_mem r hg', hle'.trans hle⟩
  · exact ⟨g, Set.mem_insert_of_mem r hg, hle⟩

theorem isGroebner_of_eq_zero (hr : r = 0) (hf : f ≠ 0) (hG : IsGroebner m (insert f G)) :
    Ideal.span G = Ideal.span (insert f G) ∧ IsGroebner m G := by
  have hspan : Ideal.span G = Ideal.span (insert f G) := by
    rw [← h.span_insert, hr, Ideal.span_insert_zero]
  refine ⟨hspan, ?_⟩
  intro F hF hne
  rw [hspan] at hF
  obtain ⟨g, hg, hle⟩ := hG F hF hne
  rcases Set.mem_insert_iff.mp hg with rfl | hg
  · obtain ⟨g', hg', hle'⟩ := h.exists_degree_le_of_eq_zero hr hf
    exact ⟨g', hg', hle'.trans hle⟩
  · exact ⟨g, hg, hle⟩

end IsNormalForm

end PolyIdeal
