import PolyIdeal.Proofs.Basis.Autoreduction
import PolyIdeal.Proofs.Basis.Membership
import PolyIdeal.Proofs.Ideal.ReducedBasis

/-!
# Normalizing and sorting

Dividing by invertible leading coefficients changes neither the ideal nor a leading monomial, and
sorting changes only the order of the elements. So an autoreduced Groebner basis stays one, and its
leading monomials differ if the leading coefficients are invertible.
-/

namespace PolyIdeal

open Monomial MonomialOrder PolyIdeal.Polynomial Reducer

section Scaling

variable {σ R : Type} [CommRing R] {m : MonomialOrder σ} {c : R} (hc : IsUnit c)
include hc

theorem degree_C_mul (F : MvPolynomial σ R) : m.degree (MvPolynomial.C c * F) = m.degree F := by
  rw [← MvPolynomial.smul_eq_C_mul]
  exact m.degree_smul_of_isRegular hc.isRegular

private theorem support_C_mul (F : MvPolynomial σ R) :
    (MvPolynomial.C c * F).support = F.support := by
  ext e
  rw [MvPolynomial.mem_support_iff, MvPolynomial.mem_support_iff, MvPolynomial.coeff_C_mul, ne_eq,
    hc.mul_right_eq_zero]

theorem leadingCoeff_C_mul (F : MvPolynomial σ R) :
    m.leadingCoeff (MvPolynomial.C c * F) = c * m.leadingCoeff F := by
  rw [MonomialOrder.leadingCoeff, degree_C_mul hc, MvPolynomial.coeff_C_mul]
  rfl

private theorem Irreducible.C_mul {F G : MvPolynomial σ R} {c' : R} (hc' : IsUnit c')
    (h : Irreducible m {G} F) :
    Irreducible m {MvPolynomial.C c' * G} (MvPolynomial.C c * F) := by
  intro e he hcancel
  rw [support_C_mul hc] at he
  rw [cancellable_singleton, degree_C_mul hc', leadingCoeff_C_mul hc', MvPolynomial.coeff_C_mul,
    hc'.mul_left_dvd, hc.dvd_mul_left] at hcancel
  exact h e he (cancellable_singleton.mpr hcancel)

end Scaling

variable {R : Type} [CommRing R] [DecidableEq R] {n : ℕ} {order : Order}
  (h : order.accepts n = true)

section Monic

variable [Coefficient R]

/-- The multiple with leading coefficient one, if there is one. -/
def monicOf (order : Order) (p : Polynomial R) : Polynomial R :=
  match p.monic order with
  | .ok r => r
  | .error _ => p

variable [ExactCoefficient R] {p : Polynomial R} {basis : List (Polynomial R)}

theorem monicOf_spec (hp : p.nvars = n)
    (hunit : IsUnit ((order.monomialOrder n h).leadingCoeff (p.denote n))) :
    p.monic order = .ok (monicOf order p) ∧ (monicOf order p).nvars = n ∧
      ∃ c, IsUnit c ∧ (monicOf order p).denote n = MvPolynomial.C c * p.denote n ∧
        (order.monomialOrder n h).leadingCoeff ((monicOf order p).denote n) = 1 := by
  obtain ⟨r, c, hr, hrn, hrd, hc⟩ := monic_ok h hp hunit
  have hmonic : monicOf order p = r := by rw [monicOf, hr]
  have hcunit : IsUnit c := IsUnit.of_mul_eq_one _ hc
  refine ⟨by rw [hmonic, hr], by rw [hmonic, hrn], c, hcunit, by rw [hmonic, hrd], ?_⟩
  rw [hmonic, hrd, leadingCoeff_C_mul hcunit, hc]

omit [ExactCoefficient R] in
include h in
theorem normalized_ok [FieldCoefficient R] (hbasis : Proper n basis) (hne : basis ≠ []) :
    normalized order basis = .ok (basis.map (monicOf order)) := by
  have hmapM : basis.mapM (Polynomial.monic order) = .ok (basis.map (monicOf order)) :=
    mapM_ok fun g hg => (monicOf_spec h (hbasis.nvars_eq g hg)
      (hbasis.isUnit_leadingCoeff _ _ (denote_mem_denotations hg))).1
  cases basis with
  | nil => exact absurd rfl hne
  | cons g basis =>
    rw [normalized, if_pos FieldCoefficient.isField_domain]
    · exact hmapM
    · exact fun heq => nomatch heq

end Monic

theorem sortedByLeading_ok {basis : List (Polynomial R)} (hbasis : Proper n basis) :
    ∃ sorted, sortedByLeading order basis = .ok sorted ∧ sorted.Perm basis ∧
      sorted.Pairwise fun p q => (order.monomialOrder n h).degree (q.denote n)
        ≼[order.monomialOrder n h] (order.monomialOrder n h).degree (p.denote n) := by
  have hled : (basis.mapM fun g : Polynomial R => do
        return (order.rank (← g.leadingMonomial order), g)) =
      .ok (basis.map fun g => (order.rank (ofExponents
        ((order.monomialOrder n h).degree (g.denote n))), g)) := by
    apply mapM_ok
    intro g hg
    rw [leadingMonomial_ok h (hbasis.nvars_eq g hg) (hbasis.denote_ne_zero g hg)]
    rfl
  refine ⟨_, by rw [sortedByLeading, hled]; rfl, ?_, ?_⟩
  · refine ((List.mergeSort_perm _ _).map Prod.snd).trans (List.Perm.of_eq ?_)
    rw [List.map_map]
    exact List.map_id basis
  · rw [List.pairwise_map]
    apply (Order.pairwise_mergeSort_key Prod.fst _).imp_of_mem
    intro a b ha hb hab
    obtain ⟨p, -, rfl⟩ := List.mem_map.mp (List.mem_mergeSort.mp ha)
    obtain ⟨q, -, rfl⟩ := List.mem_map.mp (List.mem_mergeSort.mp hb)
    exact hab

/-- A Groebner basis of an ideal in which no element can be reduced by another. -/
structure IsInterreduced (I : Ideal (MvPolynomial (Fin n) R)) (basis : List (Polynomial R)) :
    Prop where
  proper : Proper n basis
  span_eq : Ideal.span (denotations n basis) = I
  isGroebner : IsGroebner (order.monomialOrder n h) (denotations n basis)
  coreduced : basis.Pairwise fun p q =>
    Coreduced (order.monomialOrder n h) (p.denote n) (q.denote n)

theorem Autoreduced.coreduced {basis : List (Polynomial R)} (hauto : Autoreduced h basis) :
    basis.Pairwise fun p q =>
      Coreduced (order.monomialOrder n h) (p.denote n) (q.denote n) := by
  rw [List.pairwise_iff_getElem]
  intro i j hi hj hij
  have hsplit (k : ℕ) (hk : k < basis.length) :
      basis = basis.take k ++ basis[k] :: basis.drop (k + 1) := by
    rw [← List.drop_eq_getElem_cons hk, List.take_append_drop]
  constructor
  · refine (hauto _ _ _ (hsplit i hi)).mono ?_
    rw [Set.singleton_subset_iff]
    apply denote_mem_denotations
    exact List.mem_append_right _ (List.mem_drop_iff_getElem.mpr ⟨j - (i + 1), by omega,
      by congr 1; omega⟩)
  · refine (hauto _ _ _ (hsplit j hj)).mono ?_
    rw [Set.singleton_subset_iff]
    apply denote_mem_denotations
    exact List.mem_append_left _ (List.mem_take_iff_getElem.mpr ⟨i, by omega, rfl⟩)

theorem denotations_perm {basis basis' : List (Polynomial R)} (hperm : basis.Perm basis') :
    denotations n basis = denotations n basis' :=
  Set.Subset.antisymm (denotations_mono hperm.subset) (denotations_mono hperm.symm.subset)

theorem setOf_mem_map_denote (basis : List (Polynomial R)) :
    {F | F ∈ basis.map (denote n)} = denotations n basis := by
  ext F
  exact List.mem_map

namespace IsInterreduced

variable {h} {I : Ideal (MvPolynomial (Fin n) R)} {basis basis' : List (Polynomial R)}
  (hI : IsInterreduced h I basis)
include hI

theorem perm (hperm : basis.Perm basis') : IsInterreduced h I basis' where
  proper := hI.proper.subset hperm.symm.subset
  span_eq := by rw [← denotations_perm hperm, hI.span_eq]
  isGroebner := denotations_perm hperm ▸ hI.isGroebner
  coreduced := hperm.pairwise hI.coreduced fun hpq => hpq.symm

theorem pairwise_denotations :
    (denotations n basis).Pairwise (Coreduced (order.monomialOrder n h)) := by
  rintro F ⟨p, hp, rfl⟩ G ⟨q, hq, rfl⟩ hne
  have : Std.Symm fun p q : Polynomial R =>
      Coreduced (order.monomialOrder n h) (p.denote n) (q.denote n) := ⟨fun _ _ hpq => hpq.symm⟩
  exact hI.coreduced.forall hp hq fun heq => hne (congrArg (denote n) heq)

section Monic

variable [Coefficient R] [ExactCoefficient R] (hunit : ∀ G ∈ denotations n basis,
  IsUnit ((order.monomialOrder n h).leadingCoeff G))
include hunit

theorem monicOf_spec {p : Polynomial R} (hp : p ∈ basis) :
    (monicOf order p).nvars = n ∧
      ∃ c, IsUnit c ∧ (monicOf order p).denote n = MvPolynomial.C c * p.denote n ∧
        (order.monomialOrder n h).leadingCoeff ((monicOf order p).denote n) = 1 :=
  (PolyIdeal.monicOf_spec h (hI.proper.nvars_eq p hp) (hunit _ (denote_mem_denotations hp))).2

theorem leadingCoeff_monicOf {G : MvPolynomial (Fin n) R}
    (hG : G ∈ denotations n (basis.map (monicOf order))) :
    (order.monomialOrder n h).leadingCoeff G = 1 := by
  obtain ⟨_, hp', rfl⟩ := hG
  obtain ⟨p, hp, rfl⟩ := List.mem_map.mp hp'
  obtain ⟨-, -, -, -, hlc⟩ := hI.monicOf_spec hunit hp
  exact hlc

private theorem span_monicOf : Ideal.span (denotations n (basis.map (monicOf order))) = I := by
  rw [← hI.span_eq]
  apply le_antisymm <;> apply Ideal.span_le.mpr
  · rintro F ⟨r, hr, rfl⟩
    obtain ⟨g, hg, rfl⟩ := List.mem_map.mp hr
    obtain ⟨-, c, -, hd, -⟩ := hI.monicOf_spec hunit hg
    rw [hd]
    exact Ideal.mul_mem_left _ _ (Ideal.subset_span (denote_mem_denotations hg))
  · rintro F ⟨g, hg, rfl⟩
    obtain ⟨-, c, hc, hd, -⟩ := hI.monicOf_spec hunit hg
    refine (Ideal.unit_mul_mem_iff_mem _ (hc.map MvPolynomial.C)).mp ?_
    rw [← hd]
    exact Ideal.subset_span (denote_mem_denotations (List.mem_map.mpr ⟨g, hg, rfl⟩))

theorem map_monicOf : IsInterreduced h I (basis.map (PolyIdeal.monicOf order)) where
  proper := by
    constructor
    · intro r hr
      obtain ⟨g, hg, rfl⟩ := List.mem_map.mp hr
      exact (hI.monicOf_spec hunit hg).1
    · intro r hr hzero
      have hlc := hI.leadingCoeff_monicOf hunit (denote_mem_denotations hr)
      rw [hzero, leadingCoeff_zero] at hlc
      exact zero_ne_one hlc
  span_eq := hI.span_monicOf hunit
  isGroebner := by
    intro F hF hne
    rw [hI.span_monicOf hunit, ← hI.span_eq] at hF
    obtain ⟨_, ⟨g, hg, rfl⟩, hle⟩ := hI.isGroebner F hF hne
    obtain ⟨-, c, hc, hd, -⟩ := hI.monicOf_spec hunit hg
    refine ⟨_, denote_mem_denotations (List.mem_map.mpr ⟨g, hg, rfl⟩), ?_⟩
    rwa [hd, degree_C_mul hc]
  coreduced := by
    rw [List.pairwise_map]
    apply hI.coreduced.imp_of_mem
    intro p q hp hq hpq
    obtain ⟨-, c, hc, hd, -⟩ := hI.monicOf_spec hunit hp
    obtain ⟨-, c', hc', hd', -⟩ := hI.monicOf_spec hunit hq
    rw [hd, hd']
    exact ⟨hpq.1.C_mul hc hc', hpq.2.C_mul hc' hc⟩

end Monic

theorem isReducedGroebner
    (hmonic : ∀ G ∈ denotations n basis, (order.monomialOrder n h).leadingCoeff G = 1)
    (hsorted : basis.Pairwise fun p q => (order.monomialOrder n h).degree (q.denote n)
      ≼[order.monomialOrder n h] (order.monomialOrder n h).degree (p.denote n)) :
    IsReducedGroebner (order.monomialOrder n h) I (basis.map (denote n)) := by
  have hreduced : basis.Pairwise fun p q =>
      Interreduced (order.monomialOrder n h) (p.denote n) (q.denote n) := by
    apply hI.coreduced.imp_of_mem
    intro p q hp hq hpq
    have hdvd {r : Polynomial R} (hr : r ∈ basis) (c : R) :
        (order.monomialOrder n h).leadingCoeff (r.denote n) ∣ c := by
      rw [hmonic _ (denote_mem_denotations hr)]
      exact one_dvd c
    constructor
    · intro e he hle
      exact hpq.1 e he (cancellable_singleton.mpr ⟨hle, hdvd hq _⟩)
    · intro e he hle
      exact hpq.2 e he (cancellable_singleton.mpr ⟨hle, hdvd hp _⟩)
  refine ⟨?_, ?_, ?_, ?_, ?_⟩
  · rw [setOf_mem_map_denote, hI.span_eq]
  · rw [setOf_mem_map_denote]
    exact hI.isGroebner
  · intro F hF
    exact hmonic F (setOf_mem_map_denote (n := n) basis ▸ hF)
  · rw [List.pairwise_map]
    exact hreduced
  · rw [List.pairwise_map]
    apply (hsorted.and hreduced).imp_of_mem
    intro p q hp hq hpq
    -- Equal leading monomials divide each other.
    apply lt_of_le_of_ne hpq.1
    intro heq
    refine hpq.2.1 _ ((order.monomialOrder n h).degree_mem_support
      (hI.proper.denote_ne_zero p hp)) (le_of_eq ?_)
    exact (order.monomialOrder n h).toSyn.injective heq

end IsInterreduced

end PolyIdeal
