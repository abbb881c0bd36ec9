import Mathlib.Algebra.MvPolynomial.CommRing
import PolyIdeal.Proofs.Polynomial.Denotation
import PolyIdeal.Proofs.Univariate.Horner

/-!
# Arithmetic

On polynomials in the same variables sums, differences and products, also of polynomials that are
kept in different ways, opposites and multiples by a term are always there, and stand for those of
the polynomial ring.
-/

namespace PolyIdeal.Polynomial

open Monomial

variable {R : Type} [CommRing R] [DecidableEq R] {n : ℕ}

theorem denote_univariate (p : Univariate R) :
    (univariate p).denote 1 = Univariate.horner p.coefficients := by
  refine denote_eq (n := 1) rfl fun e => ?_
  have he : ofExponents e = [e 0] := by simp [ofExponents]
  rw [Univariate.coeff_horner, he]
  rfl

section Combine

variable {f : Univariate R → Univariate R → Univariate R}
  {g : Multinomial R → Multinomial R → Multinomial R}
  {op : MvPolynomial (Fin n) R → MvPolynomial (Fin n) R → MvPolynomial (Fin n) R}

theorem combine_ok
    (hf : ∀ p q : Univariate R, (univariate p).nvars = n →
      (univariate (f p q)).denote n = op ((univariate p).denote n) ((univariate q).denote n))
    (hg : ∀ p q : Multinomial R, p.nvars = n → q.nvars = n → (g p q).nvars = n ∧
      (multinomial (g p q)).denote n = op ((multinomial p).denote n) ((multinomial q).denote n))
    {p q : Polynomial R} (hp : p.nvars = n) (hq : q.nvars = n) :
    ∃ r, combine f g p q = .ok r ∧ r.nvars = n ∧ r.denote n = op (p.denote n) (q.denote n) := by
  have hpq : p.nvars = q.nvars := hp.trans hq.symm
  have hconvert := nvars_convertLike hpq
  rw [← denote_convertLike hp hq]
  unfold combine
  rw [if_pos hpq]
  cases p with
  | univariate p =>
    cases h : (univariate p).convertLike q with
    | univariate q' => exact ⟨univariate (f p q'), rfl, hp, hf p q' hp⟩
    | multinomial q' => cases q <;> cases h
  | multinomial p =>
    cases h : (multinomial p).convertLike q with
    | univariate q' => cases q <;> cases h
    | multinomial q' =>
      rw [h] at hconvert
      obtain ⟨hn, hd⟩ := hg p q' hp (hconvert.trans hq)
      exact ⟨multinomial (g p q'), rfl, hn, hd⟩

end Combine

private theorem denote_sub_univariate {p q : Univariate R} (hp : (univariate p).nvars = n) :
    (univariate (p - q)).denote n = (univariate p).denote n - (univariate q).denote n := by
  have hq : (univariate q).nvars = n := hp
  have hr : (univariate (p - q)).nvars = n := hp
  apply denote_eq hr
  intro e
  obtain ⟨i, hi⟩ := List.length_eq_one_iff.mp ((length_ofExponents e).trans hp.symm)
  rw [MvPolynomial.coeff_sub, coeff_denote hp, coeff_denote hq, hi]
  exact Univariate.coefficient_sub p q i

private theorem denote_sub_multinomial {p q : Multinomial R} (hp : p.nvars = n)
    (hq : q.nvars = n) :
    (multinomial (p - q)).denote n = (multinomial p).denote n - (multinomial q).denote n := by
  have hpq : p.nvars = q.nvars := hp.trans hq.symm
  have hr : (multinomial (p - q)).nvars = n := (Multinomial.nvars_sub hpq).trans hp
  apply denote_eq hr
  intro e
  rw [MvPolynomial.coeff_sub, coeff_denote (p := multinomial p) hp,
    coeff_denote (p := multinomial q) hq]
  exact Multinomial.coefficient_sub hpq (ofExponents e)

theorem sub_ok {p q : Polynomial R} (hp : p.nvars = n) (hq : q.nvars = n) :
    ∃ r, p.sub q = .ok r ∧ r.nvars = n ∧ r.denote n = p.denote n - q.denote n := by
  refine combine_ok (fun p q hp => denote_sub_univariate hp) (fun p q hp hq => ?_) hp hq
  exact ⟨(Multinomial.nvars_sub (hp.trans hq.symm)).trans hp, denote_sub_multinomial hp hq⟩

private theorem denote_add_multinomial {p q : Multinomial R} (hp : p.nvars = n)
    (hq : q.nvars = n) :
    (multinomial (p + q)).denote n = (multinomial p).denote n + (multinomial q).denote n := by
  have hpq : p.nvars = q.nvars := hp.trans hq.symm
  have hr : (multinomial (p + q)).nvars = n := (Multinomial.nvars_add hpq).trans hp
  apply denote_eq hr
  intro e
  rw [MvPolynomial.coeff_add, coeff_denote (p := multinomial p) hp,
    coeff_denote (p := multinomial q) hq]
  exact Multinomial.coefficient_add hpq (ofExponents e)

theorem add_ok {p q : Polynomial R} (hp : p.nvars = n) (hq : q.nvars = n) :
    ∃ r, p.add q = .ok r ∧ r.nvars = n ∧ r.denote n = p.denote n + q.denote n := by
  refine combine_ok (fun p q hp => ?_) (fun p q hp hq => ?_) hp hq
  · obtain rfl : n = 1 := hp.symm
    rw [denote_univariate, denote_univariate, denote_univariate, Univariate.horner_add]
  · exact ⟨(Multinomial.nvars_add (hp.trans hq.symm)).trans hp, denote_add_multinomial hp hq⟩

omit [DecidableEq R] in
private theorem sumOfTerms_append (terms terms' : List (Monomial × R)) :
    sumOfTerms n (terms ++ terms') = sumOfTerms n terms + sumOfTerms n terms' := by
  simp [sumOfTerms]

omit [DecidableEq R] in
private theorem sumOfTerms_map_mul {terms : List (Monomial × R)} (hl : ∀ t ∈ terms, t.1.length = n)
    (d : Fin n →₀ ℕ) (c : R) :
    sumOfTerms n (terms.map fun t => (Monomial.mul (ofExponents d) t.1, c * t.2)) =
      MvPolynomial.monomial d c * sumOfTerms n terms := by
  rw [sumOfTerms, sumOfTerms, ← List.sum_map_mul_left, List.map_map]
  congr 1
  apply List.map_congr_left
  intro t ht
  obtain ⟨u, hu⟩ := exists_ofExponents (hl t ht)
  simp only [Function.comp_apply, hu, mul_ofExponents, exponents_ofExponents,
    MvPolynomial.monomial_mul]

omit [DecidableEq R] in
private theorem sumOfTerms_flatMap_mul {terms terms' : List (Monomial × R)}
    (hl : ∀ t ∈ terms, t.1.length = n) (hl' : ∀ t ∈ terms', t.1.length = n) :
    sumOfTerms n (terms.flatMap fun s => terms'.map fun t => (Monomial.mul s.1 t.1, s.2 * t.2)) =
      sumOfTerms n terms * sumOfTerms n terms' := by
  induction terms with
  | nil => simp [sumOfTerms]
  | cons s terms ih =>
    have htail := ih fun t ht => hl t (List.mem_cons_of_mem s ht)
    obtain ⟨d, hd⟩ := exists_ofExponents (hl s List.mem_cons_self)
    rw [List.flatMap_cons, sumOfTerms_append, htail, hd, sumOfTerms_map_mul hl', ← add_mul]
    simp [sumOfTerms, hd]

private theorem denote_mul_multinomial {p q : Multinomial R} (hp : p.nvars = n)
    (hq : q.nvars = n) :
    (multinomial (p * q)).denote n = (multinomial p).denote n * (multinomial q).denote n := by
  have hpq : p.nvars = q.nvars := hp.trans hq.symm
  have hr : (multinomial (p * q)).nvars = n := (Multinomial.nvars_mul hpq).trans hp
  have hlen (t : Monomial × R) (ht : t ∈ p.terms) : t.1.length = n :=
    (length_of_mem_terms (p := multinomial p) ht).trans hp
  have hlen' (t : Monomial × R) (ht : t ∈ q.terms) : t.1.length = n :=
    (length_of_mem_terms (p := multinomial q) ht).trans hq
  have hterms : sumOfTerms n (Multinomial.productTerms p q) =
      (multinomial p).denote n * (multinomial q).denote n := sumOfTerms_flatMap_mul hlen hlen'
  apply denote_eq hr
  intro e
  rw [← hterms, coeff_sumOfTerms]
  · exact Multinomial.coefficient_mul hpq (ofExponents e)
  · intro t ht
    obtain ⟨s, hs, hst⟩ := List.mem_flatMap.mp ht
    obtain ⟨s', hs', rfl⟩ := List.mem_map.mp hst
    simp [Monomial.mul, hlen s hs, hlen' s' hs']

theorem mul_ok {p q : Polynomial R} (hp : p.nvars = n) (hq : q.nvars = n) :
    ∃ r, p.mul q = .ok r ∧ r.nvars = n ∧ r.denote n = p.denote n * q.denote n := by
  refine combine_ok (fun p q hp => ?_) (fun p q hp hq => ?_) hp hq
  · obtain rfl : n = 1 := hp.symm
    rw [denote_univariate, denote_univariate, denote_univariate, Univariate.horner_mul]
  · exact ⟨(Multinomial.nvars_mul (hp.trans hq.symm)).trans hp, denote_mul_multinomial hp hq⟩

theorem neg_spec {p : Polynomial R} (hp : p.nvars = n) :
    (-p).nvars = n ∧ (-p).denote n = -p.denote n := by
  cases p with
  | univariate p =>
    obtain rfl : n = 1 := hp.symm
    refine ⟨rfl, ?_⟩
    show (univariate (-p)).denote 1 = _
    rw [denote_univariate, denote_univariate, Univariate.horner_neg]
  | multinomial p =>
    have hr : (multinomial (-p)).nvars = n := (Multinomial.nvars_neg p).trans hp
    refine ⟨hr, ?_⟩
    show (multinomial (-p)).denote n = _
    apply denote_eq hr
    intro e
    rw [MvPolynomial.coeff_neg, coeff_denote (p := multinomial p) hp]
    exact Multinomial.coefficient_neg p (ofExponents e)

theorem constantLike_spec {p : Polynomial R} (hp : p.nvars = n) (c : R) :
    (p.constantLike c).nvars = n ∧ (p.constantLike c).denote n = MvPolynomial.C c := by
  have hr : (p.constantLike c).nvars = n := (nvars_ofTermsLike p _).trans hp
  refine ⟨hr, denote_eq hr fun e => ?_⟩
  rw [constantLike, coefficient_ofTermsLike p (by simp [unit])
    ((length_ofExponents e).trans hp.symm), hp, unit_eq_ofExponents, sumAt_cons, sumAt_nil,
    add_zero, MvPolynomial.coeff_C]
  simp only [ofExponents_inj]

private theorem coefficient_univariate_mulTerm {p : Univariate R} (hp : (univariate p).nvars = n)
    {k : ℕ} {d : Fin n →₀ ℕ} (hk : ofExponents d = [k]) (c : R) (e : Fin n →₀ ℕ) :
    (univariate (p.mulTerm k c)).coefficient (ofExponents e) =
      (MvPolynomial.monomial d c * (univariate p).denote n).coeff e := by
  obtain ⟨i, hi⟩ := List.length_eq_one_iff.mp ((length_ofExponents e).trans hp.symm)
  have hdvd : d ≤ e ↔ k ≤ i := by
    rw [← decide_eq_true_iff (p := d ≤ e), ← divides_ofExponents, hk, hi]
    simp [divides]
  rw [MvPolynomial.coeff_monomial_mul', hi]
  refine (Univariate.coefficient_mulTerm p k c i).trans (if_congr hdvd.symm ?_ rfl)
  have hquot : ofExponents (e - d) = [i - k] := by
    rw [ofExponents, Finsupp.coe_tsub]
    have hzip : List.ofFn (e - d : Fin n → ℕ) =
        List.zipWith (· - ·) (ofExponents e) (ofExponents d) := by
      apply List.ext_getElem <;> simp [ofExponents]
    rw [hzip, hi, hk]
    rfl
  rw [coeff_denote hp, hquot]
  rfl

private theorem coefficient_multinomial_mulTerm {p : Multinomial R} (hp : p.nvars = n)
    {d : Fin n →₀ ℕ} (hd : (ofExponents d).length = p.nvars) (c : R) (e : Fin n →₀ ℕ) :
    (p.mulTerm (ofExponents d) hd c).coefficient (ofExponents e) =
      (MvPolynomial.monomial d c * (multinomial p).denote n).coeff e := by
  have hlen (t : Monomial × R) (ht : t ∈ p.terms) : t.1.length = n :=
    (length_of_mem_terms (p := multinomial p) ht).trans hp
  have hterms : MvPolynomial.monomial d c * (multinomial p).denote n =
      sumOfTerms n (p.terms.map fun t => (Monomial.mul t.1 (ofExponents d), c * t.2)) := by
    refine (sumOfTerms_map_mul hlen d c).symm.trans (congrArg (sumOfTerms n) ?_)
    apply List.map_congr_left
    intro t ht
    obtain ⟨u, hu⟩ := exists_ofExponents (hlen t ht)
    rw [hu, mul_ofExponents, mul_ofExponents, add_comm]
  rw [hterms, coeff_sumOfTerms]
  · exact Multinomial.coefficient_mulTerm p hd c (ofExponents e)
  · intro t ht
    obtain ⟨s, hs, rfl⟩ := List.mem_map.mp ht
    obtain ⟨u, hu⟩ := exists_ofExponents (hlen s hs)
    rw [hu, mul_ofExponents, length_ofExponents]

theorem mulTerm_ok {p : Polynomial R} (hp : p.nvars = n) (d : Fin n →₀ ℕ) (c : R) :
    ∃ r, p.mulTerm (ofExponents d) c = .ok r ∧ r.nvars = n ∧
      r.denote n = MvPolynomial.monomial d c * p.denote n := by
  have hlen : (ofExponents d).length = p.nvars := (length_ofExponents d).trans hp.symm
  cases p with
  | univariate p =>
    obtain ⟨k, hk⟩ := List.length_eq_one_iff.mp hlen
    have hr : (univariate (p.mulTerm k c)).nvars = n := hp
    refine ⟨univariate (p.mulTerm k c), ?_, hr, denote_eq hr fun e => ?_⟩
    · rw [hk]
      rfl
    · exact coefficient_univariate_mulTerm hp hk c e
  | multinomial p =>
    have hr : (multinomial (p.mulTerm _ hlen c)).nvars = n :=
      (Multinomial.nvars_mulTerm p _ hlen c).trans hp
    refine ⟨multinomial (p.mulTerm _ hlen c), ?_, hr, denote_eq hr fun e => ?_⟩
    · rw [mulTerm]
      exact dif_pos hlen
    · exact coefficient_multinomial_mulTerm hp hlen c e

private theorem mulTerm_unit (p : Polynomial R) (c : R) :
    p.mulTerm (unit p.nvars) c = .ok (p.scale c) := by
  cases p with
  | univariate p => rfl
  | multinomial p => exact dif_pos (by simp [unit, nvars])

theorem scale_spec {p : Polynomial R} (hp : p.nvars = n) (c : R) :
    (p.scale c).nvars = n ∧ (p.scale c).denote n = MvPolynomial.C c * p.denote n := by
  obtain ⟨r, hr, hrn, hrd⟩ := mulTerm_ok hp 0 c
  rw [← unit_eq_ofExponents, ← hp, mulTerm_unit] at hr
  obtain rfl := Except.ok.inj hr
  exact ⟨hrn, hrd⟩

end PolyIdeal.Polynomial
