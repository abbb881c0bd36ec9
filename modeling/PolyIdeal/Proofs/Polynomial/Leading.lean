import Mathlib.RingTheory.MvPolynomial.MonomialOrder
import PolyIdeal.Polynomial.Leading
import PolyIdeal.Proofs.Coefficient.Exact
import PolyIdeal.Proofs.Order.Comparison
import PolyIdeal.Proofs.Polynomial.Arithmetic
import PolyIdeal.Proofs.Traced

/-!
# Leading terms

The leading term of a polynomial is the one with respect to the monomial order that its order is.
-/

namespace PolyIdeal

namespace Polynomial

open Monomial MonomialOrder

variable {R : Type} [CommRing R] [DecidableEq R] {n : ℕ} {order : Order}

theorem check_monomials (h : order.accepts n = true) {p : Polynomial R} (hp : p.nvars = n) :
    p.monomials.forM (fun m => order.check m.toInts) = .ok () :=
  forM_ok fun _ hm => Order.check_toInts h ((length_of_mem_monomials hm).trans hp)

theorem length_of_mem_descending {p : Polynomial R} (hp : p.nvars = n) {m : Monomial}
    (hm : m ∈ order.descending p.monomials) : m.length = n :=
  (length_of_mem_monomials ((order.descending_perm _).mem_iff.mp hm)).trans hp

theorem mem_descending_iff {p : Polynomial R} (hp : p.nvars = n) {e : Fin n →₀ ℕ} :
    ofExponents e ∈ order.descending p.monomials ↔ e ∈ (p.denote n).support := by
  rw [(order.descending_perm _).mem_iff, mem_monomials_iff hp]

private theorem exists_of_leadingTerm {p : Polynomial R} {t : Monomial × R}
    (ht : p.leadingTerm order = .ok t) :
    ∃ m ms, p.monomials = m :: ms ∧ order.check m.toInts = .ok () ∧
      t.1 = order.maxFrom m ms := by
  rw [leadingTerm] at ht
  cases hms : p.monomials with
  | nil =>
    rw [hms] at ht
    cases ht
  | cons m ms =>
    rw [hms] at ht
    obtain ⟨_, hchecks, hlead⟩ := exists_of_bind_ok ht
    change (order.check m.toInts >>= fun _ => ms.forM fun m => order.check m.toInts) = _ at hchecks
    obtain ⟨_, hcheck, -⟩ := exists_of_bind_ok hchecks
    exact ⟨m, ms, rfl, hcheck, congrArg Prod.fst (Except.ok.inj hlead).symm⟩

theorem mem_monomials_of_leadingTerm {p : Polynomial R} {t : Monomial × R}
    (ht : p.leadingTerm order = .ok t) : t.1 ∈ p.monomials := by
  obtain ⟨m, ms, hms, -, heq⟩ := exists_of_leadingTerm ht
  rw [hms, heq]
  exact order.maxFrom_mem m ms

theorem accepts_of_leadingTerm {p : Polynomial R} {t : Monomial × R}
    (ht : p.leadingTerm order = .ok t) : order.accepts p.nvars = true := by
  obtain ⟨m, ms, hms, hcheck, -⟩ := exists_of_leadingTerm ht
  have hm : m ∈ p.monomials := hms ▸ List.mem_cons_self
  rw [← length_of_mem_monomials hm]
  exact Order.accepts_of_check hcheck

variable [Coefficient R]

omit [Coefficient R] in
private theorem maxFrom_monomials (h : order.accepts n = true) {p : Polynomial R} (hp : p.nvars = n)
    {m : Monomial} {ms : List Monomial} (hms : p.monomials = m :: ms) :
    order.maxFrom m ms = ofExponents ((order.monomialOrder n h).degree (p.denote n)) := by
  have hmem : order.maxFrom m ms ∈ p.monomials := hms ▸ order.maxFrom_mem m ms
  obtain ⟨e, he⟩ := exists_ofExponents ((length_of_mem_monomials hmem).trans hp)
  rw [he, mem_monomials_iff hp] at hmem
  have hne : p.denote n ≠ 0 := by
    rintro hzero
    rw [hzero] at hmem
    exact absurd hmem (Finset.notMem_empty e)
  have hdeg := (mem_monomials_iff hp).mpr ((order.monomialOrder n h).degree_mem_support hne)
  have hle := order.rank_le_maxFrom (hms ▸ hdeg)
  rw [he] at hle ⊢
  rw [ofExponents_inj]
  apply (order.monomialOrder n h).toSyn.injective
  exact le_antisymm ((order.monomialOrder n h).le_degree hmem) hle

omit [Coefficient R] in
theorem leadingTerm_ok (h : order.accepts n = true) {p : Polynomial R} (hp : p.nvars = n)
    (hne : p.denote n ≠ 0) :
    p.leadingTerm order = .ok (ofExponents ((order.monomialOrder n h).degree (p.denote n)),
      (order.monomialOrder n h).leadingCoeff (p.denote n)) := by
  have hcheck := check_monomials h hp
  have hdeg := (mem_monomials_iff hp).mpr ((order.monomialOrder n h).degree_mem_support hne)
  rw [leadingTerm]
  cases hms : p.monomials with
  | nil =>
    rw [hms] at hdeg
    cases hdeg
  | cons m ms =>
    rw [hms] at hcheck
    simp only [hcheck, maxFrom_monomials h hp hms, MonomialOrder.leadingCoeff, coeff_denote hp]
    rfl

omit [Coefficient R] in
theorem leadingMonomial_ok (h : order.accepts n = true) {p : Polynomial R} (hp : p.nvars = n)
    (hne : p.denote n ≠ 0) :
    p.leadingMonomial order =
      .ok (ofExponents ((order.monomialOrder n h).degree (p.denote n))) := by
  rw [leadingMonomial, leadingTerm_ok h hp hne]
  rfl

omit [Coefficient R] in
theorem leadingCoefficient_ok (h : order.accepts n = true) {p : Polynomial R} (hp : p.nvars = n)
    (hne : p.denote n ≠ 0) :
    p.leadingCoefficient order = .ok ((order.monomialOrder n h).leadingCoeff (p.denote n)) := by
  rw [leadingCoefficient, leadingTerm_ok h hp hne]
  rfl

omit [Coefficient R] in
theorem degree_univariate (m : MonomialOrder (Fin 1)) {p : Univariate R} {c : R}
    (hc : p.leadingCoefficient? = some c) :
    m.degree ((univariate p).denote 1) = Finsupp.single 0 (p.size - 1) := by
  have hne : c ≠ 0 := fun hzero => p.trimmed (hc.trans (congrArg some hzero))
  rw [denote_univariate]
  apply m.toSyn.injective
  apply le_antisymm
  · refine m.degree_le_iff.mpr fun e he => m.toSyn_monotone fun i => ?_
    have hlt := Univariate.lt_size_of_mem_support he
    rw [Fin.eq_zero i, Finsupp.single_eq_same]
    omega
  · apply m.le_degree
    rwa [MvPolynomial.mem_support_iff, ← Univariate.coefficient_eq_coeff,
      Univariate.coefficient_size_sub_one hc]

omit [Coefficient R] in
theorem leadingCoeff_univariate (h : order.accepts n = true) {p : Univariate R} {c : R}
    (hp : (univariate p).nvars = n) (hc : p.leadingCoefficient? = some c) :
    (order.monomialOrder n h).leadingCoeff ((univariate p).denote n) = c := by
  obtain rfl : n = 1 := hp.symm
  rw [MonomialOrder.leadingCoeff, degree_univariate _ hc, denote_univariate,
    ← Univariate.coefficient_eq_coeff, Univariate.coefficient_size_sub_one hc]

@[simp] theorem chop_none (p : Polynomial R) : p.chop none = .ok p := rfl

theorem monic_of_denote_eq_zero {p : Polynomial R} (hp : p.nvars = n) (hzero : p.denote n = 0) :
    p.monic order = .ok p := by
  rw [← isZero_iff hp] at hzero
  cases p with
  | univariate p =>
    have hlast : p.leadingCoefficient? = none :=
      List.getLast?_eq_none_iff.mpr (List.isEmpty_iff.mp hzero)
    rw [monic, Univariate.monic, hlast]
    rfl
  | multinomial p =>
    rw [monic]
    exact if_pos hzero

theorem monic_eq (h : order.accepts n = true) {p : Polynomial R} (hp : p.nvars = n)
    (hne : p.denote n ≠ 0) :
    p.monic order =
      (Coefficient.inverse ((order.monomialOrder n h).leadingCoeff (p.denote n))).map p.scale := by
  cases p with
  | univariate p =>
    cases hlast : p.leadingCoefficient? with
    | none =>
      exfalso
      apply hne
      rw [← isZero_iff hp]
      exact List.isEmpty_iff.mpr (List.getLast?_eq_none_iff.mp hlast)
    | some a =>
      rw [leadingCoeff_univariate h hp hlast, monic, Univariate.monic, hlast]
      rcases hinv : Coefficient.inverse a with e | c
      · simp only [hinv]
        rfl
      · simp only [hinv]
        rfl
  | multinomial p =>
    have hzero : p.isZero = false := (isZero_eq_false_iff hp).mpr hne
    simp only [monic, hzero, leadingCoefficient_ok h hp hne]
    rcases hinv : Coefficient.inverse
      ((order.monomialOrder n h).leadingCoeff ((multinomial p).denote n)) with e | c
    · change (Coefficient.inverse _ >>= _) = _
      rw [hinv]
      rfl
    · change (Coefficient.inverse _ >>= _) = _
      rw [hinv]
      rfl

theorem monic_ok [ExactCoefficient R] (h : order.accepts n = true) {p : Polynomial R}
    (hp : p.nvars = n) (hunit : IsUnit ((order.monomialOrder n h).leadingCoeff (p.denote n))) :
    ∃ r c, p.monic order = .ok r ∧ r.nvars = n ∧ r.denote n = MvPolynomial.C c * p.denote n ∧
      c * (order.monomialOrder n h).leadingCoeff (p.denote n) = 1 := by
  have hne := (order.monomialOrder n h).leadingCoeff_ne_zero_iff.mp hunit.ne_zero
  obtain ⟨c, hinv, hc⟩ := Coefficient.inverse_of_isUnit hunit
  obtain ⟨hn, hd⟩ := scale_spec hp c
  refine ⟨p.scale c, c, ?_, hn, hd, hc⟩
  rw [monic_eq h hp hne, hinv]
  rfl

end Polynomial

theorem Proper.isUnit_leadingCoeff {R : Type} [CommRing R] [DecidableEq R] [Coefficient R]
    [FieldCoefficient R] {n : ℕ} {basis : List (Polynomial R)} (hbasis : Proper n basis)
    (m : MonomialOrder (Fin n)) : ∀ G ∈ denotations n basis, IsUnit (m.leadingCoeff G) := by
  rintro G ⟨g, hg, rfl⟩
  exact FieldCoefficient.isUnit_of_ne_zero
    (m.leadingCoeff_ne_zero_iff.mpr (hbasis.denote_ne_zero g hg))

end PolyIdeal
