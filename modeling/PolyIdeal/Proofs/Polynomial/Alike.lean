import PolyIdeal.Polynomial.Conversion
import PolyIdeal.Proofs.Polynomial.Evaluation
import PolyIdeal.Proofs.Polynomial.Leading
import PolyIdeal.Proofs.SameOutcome

/-!
# Polynomials that are kept in different ways

Polynomials in the same variables with the same terms are alike. What is asked of a polynomial
depends on its terms only, and what is made of alike polynomials is alike again.
-/

namespace PolyIdeal

open Monomial PolyIdeal.Polynomial

private theorem sublist_of_filterM_ok {ε α : Type} {f : α → Except ε Bool} {l l' : List α}
    (h : l.filterM f = .ok l') : l'.Sublist l := by
  have go (l acc l' : List α) (h : List.filterAuxM f l acc = .ok l') :
      ∃ kept : List α, kept.Sublist l ∧ l' = kept.reverse ++ acc := by
    induction l generalizing acc with
    | nil => exact ⟨[], .slnil, (Except.ok.inj h).symm⟩
    | cons a l ih =>
      rw [List.filterAuxM] at h
      obtain ⟨b, -, h⟩ := exists_of_bind_ok h
      obtain ⟨kept, hkept, rfl⟩ := ih _ h
      cases b with
      | false => exact ⟨kept, hkept.cons a, rfl⟩
      | true => exact ⟨a :: kept, hkept.cons_cons a, by simp⟩
  obtain ⟨aux, haux, h⟩ := exists_of_bind_ok (show (List.filterAuxM f l [] >>= _) = _ from h)
  obtain ⟨kept, hkept, rfl⟩ := go l [] aux haux
  obtain rfl := Except.ok.inj h
  simpa using hkept

variable {R : Type}

/-- Polynomials in `n` variables with the same terms, in whatever way each of them is kept. -/
structure Alike [Zero R] [DecidableEq R] (n : ℕ) (p q : Polynomial R) : Prop where
  nvars_eq : p.nvars = n
  nvars_eq' : q.nvars = n
  terms_eq : p.terms = q.terms

namespace Alike

section Terms

variable [Zero R] [DecidableEq R] {n : ℕ} {p q : Polynomial R}

theorem refl (hp : p.nvars = n) : Alike n p p :=
  ⟨hp, hp, rfl⟩

variable (h : Alike n p q)
include h

theorem monomials_eq : p.monomials = q.monomials :=
  congrArg (List.map Prod.fst) h.terms_eq

theorem coefficient_eq (m : Monomial) : p.coefficient m = q.coefficient m :=
  terms_eq_iff.mp h.terms_eq m

theorem isZero_eq : p.isZero = q.isZero := by
  rw [Bool.eq_iff_iff, isZero_iff_terms, isZero_iff_terms, h.terms_eq]

theorem nvars_eq_nvars : p.nvars = q.nvars :=
  h.nvars_eq.trans h.nvars_eq'.symm

private theorem agrees : p.agrees q = true := by
  rw [Polynomial.agrees, Bool.and_eq_true, beq_iff_eq, beq_iff_eq]
  exact ⟨h.nvars_eq_nvars, h.terms_eq⟩

theorem agrees_congr {p' q' : Polynomial R} (h' : Alike n p' q') :
    p.agrees p' = q.agrees q' := by
  rw [Polynomial.agrees, Polynomial.agrees, h.nvars_eq_nvars, h'.nvars_eq_nvars, h.terms_eq,
    h'.terms_eq]

theorem leadingTerm_eq (order : Order) : p.leadingTerm order = q.leadingTerm order := by
  rw [leadingTerm, leadingTerm, h.monomials_eq]
  simp only [h.coefficient_eq]

theorem leadingMonomial_eq (order : Order) :
    p.leadingMonomial order = q.leadingMonomial order := by
  rw [leadingMonomial, leadingMonomial, h.leadingTerm_eq]

private theorem ofTermsLike [Add R] {terms : List (Monomial × R)}
    (hl : ∀ t ∈ terms, t.1.length = n) : Alike n (p.ofTermsLike terms) (q.ofTermsLike terms) := by
  have hp : (p.ofTermsLike terms).nvars = n := (nvars_ofTermsLike p terms).trans h.nvars_eq
  have hq : (q.ofTermsLike terms).nvars = n := (nvars_ofTermsLike q terms).trans h.nvars_eq'
  refine ⟨hp, hq, terms_eq_iff.mpr fun m => ?_⟩
  by_cases hm : m.length = n
  · rw [coefficient_ofTermsLike_eq_addedAt p (fun t ht => (hl t ht).trans h.nvars_eq.symm)
        (hm.trans h.nvars_eq.symm),
      coefficient_ofTermsLike_eq_addedAt q (fun t ht => (hl t ht).trans h.nvars_eq'.symm)
        (hm.trans h.nvars_eq'.symm)]
  · rw [coefficient_of_length_ne (hp ▸ hm), coefficient_of_length_ne (hq ▸ hm)]

private theorem of_sublist [Add R] {terms : List (Monomial × R)} (hsub : terms.Sublist p.terms) :
    Alike n (p.ofTermsLike terms) (q.ofTermsLike terms) :=
  h.ofTermsLike fun _ ht => (length_of_mem_terms (hsub.subset ht)).trans h.nvars_eq

theorem filterTerms [Add R] (keep : Monomial × R → Bool) :
    Alike n (p.filterTerms keep) (q.filterTerms keep) := by
  rw [Polynomial.filterTerms, Polynomial.filterTerms, ← h.terms_eq]
  exact h.of_sublist List.filter_sublist

theorem text_eq [One R] [Coefficient R] : p.text = q.text := by
  rw [text, text, h.terms_eq]

theorem chop [Add R] [Coefficient R] (tolerance : Option Tolerance) :
    SameOutcome (Alike n) (p.chop tolerance) (q.chop tolerance) := by
  cases tolerance with
  | none => exact .success h
  | some t =>
    rw [Polynomial.chop, Polynomial.chop, ← h.terms_eq]
    refine SameOutcome.bind_same fun kept hkept => ?_
    by_cases hlength : kept.length = p.terms.length
    · rw [if_pos hlength, if_pos hlength]
      exact .success h
    · rw [if_neg hlength, if_neg hlength]
      exact .success (h.of_sublist (sublist_of_filterM_ok hkept))

end Terms

section Ring

variable [CommRing R] [DecidableEq R] {n : ℕ} {p q p' q' : Polynomial R}

theorem of_denote (hp : p.nvars = n) (hq : q.nvars = n) (h : p.denote n = q.denote n) :
    Alike n p q := by
  have hagrees := (agrees_iff hp hq).mpr h
  rw [Polynomial.agrees, Bool.and_eq_true, beq_iff_eq, beq_iff_eq] at hagrees
  exact ⟨hp, hq, hagrees.2⟩

private theorem of_ok {x y : Except Failure (Polynomial R)} {F : MvPolynomial (Fin n) R}
    (hx : ∃ r, x = .ok r ∧ r.nvars = n ∧ r.denote n = F)
    (hy : ∃ s, y = .ok s ∧ s.nvars = n ∧ s.denote n = F) : SameOutcome (Alike n) x y := by
  obtain ⟨r, rfl, hrn, hrd⟩ := hx
  obtain ⟨s, rfl, hsn, hsd⟩ := hy
  exact .success (of_denote hrn hsn (hrd.trans hsd.symm))

variable (h : Alike n p q) (h' : Alike n p' q')
include h

theorem denote_eq : p.denote n = q.denote n :=
  (agrees_iff h.nvars_eq h.nvars_eq').mp h.agrees

include h' in
theorem add : SameOutcome (Alike n) (p.add p') (q.add q') := by
  have hq := add_ok h.nvars_eq' h'.nvars_eq'
  rw [← h.denote_eq, ← h'.denote_eq] at hq
  exact of_ok (add_ok h.nvars_eq h'.nvars_eq) hq

include h' in
theorem sub : SameOutcome (Alike n) (p.sub p') (q.sub q') := by
  have hq := sub_ok h.nvars_eq' h'.nvars_eq'
  rw [← h.denote_eq, ← h'.denote_eq] at hq
  exact of_ok (sub_ok h.nvars_eq h'.nvars_eq) hq

include h' in
theorem mul : SameOutcome (Alike n) (p.mul p') (q.mul q') := by
  have hq := mul_ok h.nvars_eq' h'.nvars_eq'
  rw [← h.denote_eq, ← h'.denote_eq] at hq
  exact of_ok (mul_ok h.nvars_eq h'.nvars_eq) hq

theorem neg : Alike n (-p) (-q) := by
  obtain ⟨hpn, hpd⟩ := neg_spec h.nvars_eq
  obtain ⟨hqn, hqd⟩ := neg_spec h.nvars_eq'
  refine of_denote hpn hqn ?_
  rw [hpd, hqd, h.denote_eq]

theorem mulTerm {u : Monomial} (hu : u.length = n) (c : R) :
    SameOutcome (Alike n) (p.mulTerm u c) (q.mulTerm u c) := by
  obtain ⟨d, rfl⟩ := exists_ofExponents hu
  have hq := mulTerm_ok h.nvars_eq' d c
  rw [← h.denote_eq] at hq
  exact of_ok (mulTerm_ok h.nvars_eq d c) hq

theorem scale (c : R) : Alike n (p.scale c) (q.scale c) := by
  obtain ⟨hpn, hpd⟩ := scale_spec h.nvars_eq c
  obtain ⟨hqn, hqd⟩ := scale_spec h.nvars_eq' c
  refine of_denote hpn hqn ?_
  rw [hpd, hqd, h.denote_eq]

theorem power (k : ℕ) : Alike n (p.power k) (q.power k) := by
  obtain ⟨hpn, hpd⟩ := power_spec h.nvars_eq k
  obtain ⟨hqn, hqd⟩ := power_spec h.nvars_eq' k
  refine of_denote hpn hqn ?_
  rw [hpd, hqd, h.denote_eq]

theorem monic [Coefficient R] {order : Order} (horder : order.accepts n = true) :
    SameOutcome (Alike n) (p.monic order) (q.monic order) := by
  by_cases hzero : p.denote n = 0
  · rw [monic_of_denote_eq_zero h.nvars_eq hzero,
      monic_of_denote_eq_zero h.nvars_eq' (h.denote_eq ▸ hzero)]
    exact .success h
  · rw [monic_eq horder h.nvars_eq hzero, monic_eq horder h.nvars_eq' (h.denote_eq ▸ hzero),
      ← h.denote_eq]
    exact SameOutcome.map_same h.scale

end Ring

end Alike

end PolyIdeal
