import Mathlib.Algebra.MvPolynomial.Basic
import Mathlib.Data.List.Lex
import PolyIdeal.Polynomial.Basic
import PolyIdeal.Proofs.Monomial.Exponents
import PolyIdeal.Proofs.Multinomial.Coefficients
import PolyIdeal.Proofs.Univariate.Coefficients

/-!
# The polynomial that is meant

However a polynomial is kept, its terms add up to an element of the polynomial ring in as many
variables. The operations on polynomials in the same variables never fail and are the operations
of that ring.
-/

namespace PolyIdeal.Polynomial

open Monomial

section Terms

variable {R : Type} [Zero R] [DecidableEq R] {p q : Polynomial R}

theorem mem_terms {m : Monomial} {c : R} : (m, c) ∈ p.terms ↔ p.coefficient m = c ∧ c ≠ 0 := by
  cases p with
  | univariate p =>
    rw [terms, Univariate.mem_terms]
    constructor
    · rintro ⟨i, rfl, h⟩
      exact h
    · rintro ⟨hc, hne⟩
      match m, hc with
      | [i], hc => exact ⟨i, rfl, hc, hne⟩
      | [], hc => exact absurd hc.symm hne
      | _ :: _ :: _, hc => exact absurd hc.symm hne
  | multinomial p => exact Multinomial.mem_terms

private theorem pairwise_terms (p : Polynomial R) : p.terms.Pairwise fun s t => s.1 < t.1 := by
  cases p with
  | univariate p => exact p.pairwise_terms
  | multinomial p => exact p.pairwise_terms

theorem nodup_monomials (p : Polynomial R) : p.monomials.Nodup :=
  List.pairwise_map.mpr (p.pairwise_terms.imp fun h => ne_of_lt h)

private theorem mem_monomials {m : Monomial} : m ∈ p.monomials ↔ p.coefficient m ≠ 0 := by
  rw [monomials, List.mem_map]
  constructor
  · rintro ⟨⟨m, c⟩, ht, rfl⟩
    obtain ⟨hc, hne⟩ := mem_terms.mp ht
    rwa [hc]
  · intro h
    exact ⟨(m, p.coefficient m), mem_terms.mpr ⟨rfl, h⟩, rfl⟩

omit [DecidableEq R] in
theorem length_of_coefficient_ne_zero {m : Monomial} (h : p.coefficient m ≠ 0) :
    m.length = p.nvars := by
  cases p with
  | univariate p =>
    match m, h with
    | [_], _ => rfl
    | [], h => exact absurd rfl h
    | _ :: _ :: _, h => exact absurd rfl h
  | multinomial p => exact Multinomial.length_of_coefficient_ne_zero h

omit [DecidableEq R] in
theorem coefficient_of_length_ne {m : Monomial} (h : m.length ≠ p.nvars) : p.coefficient m = 0 := by
  by_contra hne
  exact h (length_of_coefficient_ne_zero hne)

theorem length_of_mem_terms {t : Monomial × R} (h : t ∈ p.terms) : t.1.length = p.nvars := by
  obtain ⟨hc, hne⟩ := mem_terms.mp h
  rw [← hc] at hne
  exact length_of_coefficient_ne_zero hne

theorem length_of_mem_monomials {m : Monomial} (h : m ∈ p.monomials) : m.length = p.nvars :=
  length_of_coefficient_ne_zero (mem_monomials.mp h)

theorem isZero_iff_terms : p.isZero = true ↔ p.terms = [] := by
  cases p with
  | univariate p => exact Univariate.isZero_iff
  | multinomial p => exact List.isEmpty_iff

theorem monomials_eq_nil_iff : p.monomials = [] ↔ p.isZero = true := by
  rw [monomials, List.map_eq_nil_iff, isZero_iff_terms]

theorem terms_eq_iff : p.terms = q.terms ↔ ∀ m, p.coefficient m = q.coefficient m := by
  constructor
  · intro h m
    by_cases hm : p.coefficient m = 0
    · by_contra hne
      have hq : (m, q.coefficient m) ∈ q.terms := mem_terms.mpr ⟨rfl, fun hzero =>
        hne (hm.trans hzero.symm)⟩
      exact hne (mem_terms.mp (h ▸ hq)).1
    · have hp : (m, p.coefficient m) ∈ p.terms := mem_terms.mpr ⟨rfl, hm⟩
      exact (mem_terms.mp (h ▸ hp)).1.symm
  · intro h
    refine eq_of_ascending p.pairwise_terms q.pairwise_terms fun ⟨m, c⟩ => ?_
    rw [mem_terms, mem_terms, h]

section InTurn

variable [Add R]

theorem nvars_ofTermsLike (p : Polynomial R) (terms : List (Monomial × R)) :
    (p.ofTermsLike terms).nvars = p.nvars := by
  cases p with
  | univariate p => rfl
  | multinomial p => exact Multinomial.nvars_ofTerms _ _ _

theorem coefficient_ofTermsLike_eq_addedAt (p : Polynomial R) {terms : List (Monomial × R)}
    (hl : ∀ t ∈ terms, t.1.length = p.nvars) {m : Monomial} (hm : m.length = p.nvars) :
    (p.ofTermsLike terms).coefficient m = addedAt 0 terms m := by
  cases p with
  | univariate p =>
    obtain ⟨i, rfl⟩ := List.length_eq_one_iff.mp hm
    refine (Univariate.coefficient_ofTerms_eq_addedAt _ i).trans ?_
    refine addedAt_map (i := [i]) (f := fun m : Monomial => m.getD 0 0) (fun t ht hi => ?_) 0
    obtain ⟨j, hj⟩ := List.length_eq_one_iff.mp (hl t ht)
    rw [hj] at hi ⊢
    exact congrArg (fun k => [k]) hi
  | multinomial p => exact Multinomial.coefficient_ofTerms_eq_addedAt _ hl m

end InTurn

end Terms

variable {R : Type} [CommRing R] [DecidableEq R] {n : ℕ}

/-- The sum of terms in the polynomial ring in `n` variables. -/
noncomputable def sumOfTerms (n : ℕ) (terms : List (Monomial × R)) : MvPolynomial (Fin n) R :=
  (terms.map fun t => MvPolynomial.monomial (exponents n t.1) t.2).sum

/-- The element of the polynomial ring in `n` variables that a polynomial stands for. -/
noncomputable def denote (n : ℕ) (p : Polynomial R) : MvPolynomial (Fin n) R :=
  sumOfTerms n p.terms

omit [DecidableEq R] in
theorem coeff_sumOfTerms {terms : List (Monomial × R)} (hl : ∀ t ∈ terms, t.1.length = n)
    (e : Fin n →₀ ℕ) : (sumOfTerms n terms).coeff e = sumAt terms (ofExponents e) := by
  induction terms with
  | nil => simp [sumOfTerms]
  | cons t terms ih =>
    have htail := ih fun s hs => hl s (List.mem_cons_of_mem _ hs)
    obtain ⟨d, hd⟩ := exists_ofExponents (hl t (by simp))
    rw [sumOfTerms] at htail ⊢
    rw [List.map_cons, List.sum_cons, MvPolynomial.coeff_add, htail, sumAt_cons,
      MvPolynomial.coeff_monomial, hd, exponents_ofExponents]
    simp only [ofExponents_inj]

theorem sumAt_terms (p : Polynomial R) (m : Monomial) : sumAt p.terms m = p.coefficient m := by
  by_cases h : p.coefficient m = 0
  · rw [h]
    exact sumAt_of_not_mem fun c hc => (mem_terms.mp hc).2 ((mem_terms.mp hc).1.symm.trans h)
  · exact sumAt_of_mem p.nodup_monomials (mem_terms.mpr ⟨rfl, h⟩)

section Denote

variable {p q : Polynomial R}

theorem coeff_denote (hp : p.nvars = n) (e : Fin n →₀ ℕ) :
    (p.denote n).coeff e = p.coefficient (ofExponents e) := by
  rw [denote, coeff_sumOfTerms, sumAt_terms]
  intro t ht
  exact (length_of_mem_terms ht).trans hp

theorem denote_eq (hp : p.nvars = n) {F : MvPolynomial (Fin n) R}
    (h : ∀ e, p.coefficient (ofExponents e) = F.coeff e) : p.denote n = F := by
  ext e
  rw [coeff_denote hp, h]

theorem mem_monomials_iff (hp : p.nvars = n) {e : Fin n →₀ ℕ} :
    ofExponents e ∈ p.monomials ↔ e ∈ (p.denote n).support := by
  rw [mem_monomials, MvPolynomial.mem_support_iff, coeff_denote hp]

theorem isZero_iff (hp : p.nvars = n) : p.isZero = true ↔ p.denote n = 0 := by
  rw [isZero_iff_terms]
  constructor
  · intro h
    rw [denote, h]
    rfl
  · intro h
    rw [List.eq_nil_iff_forall_not_mem]
    rintro ⟨m, c⟩ ht
    obtain ⟨e, rfl⟩ := exists_ofExponents ((length_of_mem_terms ht).trans hp)
    obtain ⟨hc, hne⟩ := mem_terms.mp ht
    apply hne
    rw [← hc, ← coeff_denote hp, h, MvPolynomial.coeff_zero]

theorem isZero_eq_false_iff (hp : p.nvars = n) : p.isZero = false ↔ p.denote n ≠ 0 := by
  rw [← Bool.not_eq_true, isZero_iff hp]

theorem agrees_iff (hp : p.nvars = n) (hq : q.nvars = n) :
    p.agrees q = true ↔ p.denote n = q.denote n := by
  rw [agrees, Bool.and_eq_true, beq_iff_eq, beq_iff_eq]
  constructor
  · rintro ⟨-, h⟩
    rw [denote, denote, h]
  · intro h
    refine ⟨hp.trans hq.symm, terms_eq_iff.mpr fun m => ?_⟩
    by_cases hl : m.length = n
    · obtain ⟨e, rfl⟩ := exists_ofExponents hl
      rw [← coeff_denote hp, ← coeff_denote hq, h]
    · rw [coefficient_of_length_ne fun hm => hl (hm.trans hp),
        coefficient_of_length_ne fun hm => hl (hm.trans hq)]

end Denote

theorem coefficient_ofTermsLike (p : Polynomial R) {terms : List (Monomial × R)}
    (hl : ∀ t ∈ terms, t.1.length = p.nvars) {m : Monomial} (hm : m.length = p.nvars) :
    (p.ofTermsLike terms).coefficient m = sumAt terms m := by
  rw [coefficient_ofTermsLike_eq_addedAt p hl hm, addedAt_eq, zero_add]

section TermsOf

/-- The terms of an element of the polynomial ring. -/
noncomputable def termsOf (F : MvPolynomial (Fin n) R) : List (Monomial × R) :=
  F.support.toList.map fun e => (ofExponents e, F.coeff e)

variable {F : MvPolynomial (Fin n) R}

omit [DecidableEq R] in
theorem exists_of_mem_termsOf {t : Monomial × R} (h : t ∈ termsOf F) :
    ∃ e ∈ F.support, t = (ofExponents e, F.coeff e) := by
  obtain ⟨e, he, rfl⟩ := List.mem_map.mp h
  exact ⟨e, Finset.mem_toList.mp he, rfl⟩

omit [DecidableEq R] in
theorem length_of_mem_termsOf {t : Monomial × R} (h : t ∈ termsOf F) : t.1.length = n := by
  obtain ⟨e, -, rfl⟩ := exists_of_mem_termsOf h
  exact length_ofExponents e

omit [DecidableEq R] in
theorem nodup_termsOf (F : MvPolynomial (Fin n) R) : ((termsOf F).map Prod.fst).Nodup := by
  rw [termsOf, List.map_map]
  exact F.support.nodup_toList.map ofExponents_injective

omit [DecidableEq R] in
theorem sumOfTerms_termsOf (F : MvPolynomial (Fin n) R) : sumOfTerms n (termsOf F) = F := by
  rw [sumOfTerms, termsOf, List.map_map, Finset.sum_map_toList]
  simp only [Function.comp_apply, exponents_ofExponents]
  exact F.as_sum.symm

theorem terms_perm {p : Polynomial R} (hp : p.nvars = n) :
    p.terms.Perm (termsOf (p.denote n)) := by
  have hnodup := p.nodup_monomials.of_map
  refine (List.perm_ext_iff_of_nodup hnodup (nodup_termsOf _).of_map).mpr fun t => ?_
  constructor
  · intro ht
    obtain ⟨m, c⟩ := t
    obtain ⟨e, rfl⟩ := exists_ofExponents ((length_of_mem_terms ht).trans hp)
    obtain ⟨rfl, hne⟩ := mem_terms.mp ht
    rw [← coeff_denote hp] at hne ⊢
    exact List.mem_map.mpr ⟨e, Finset.mem_toList.mpr (MvPolynomial.mem_support_iff.mpr hne), rfl⟩
  · intro ht
    obtain ⟨e, he, rfl⟩ := exists_of_mem_termsOf ht
    rw [MvPolynomial.mem_support_iff] at he
    exact mem_terms.mpr ⟨(coeff_denote hp e).symm, he⟩

theorem exists_denote_eq {p : Polynomial R} (hp : p.nvars = n) (F : MvPolynomial (Fin n) R) :
    ∃ q : Polynomial R, q.nvars = n ∧ q.denote n = F := by
  have hlen (t : Monomial × R) (ht : t ∈ termsOf F) : t.1.length = n := length_of_mem_termsOf ht
  have hq := (nvars_ofTermsLike p (termsOf F)).trans hp
  refine ⟨_, hq, denote_eq hq fun e => ?_⟩
  rw [coefficient_ofTermsLike p (fun t ht => (hlen t ht).trans hp.symm)
    ((length_ofExponents e).trans hp.symm), ← coeff_sumOfTerms hlen, sumOfTerms_termsOf]

end TermsOf

theorem nvars_convertLike {p q : Polynomial R} (h : p.nvars = q.nvars) :
    (p.convertLike q).nvars = q.nvars := by
  rw [← h]
  rcases p with p | p <;> rcases q with q | q
  · rfl
  · exact nvars_ofTermsLike (univariate p) _
  · exact nvars_ofTermsLike (multinomial p) _
  · exact h.symm

theorem denote_convertLike {p q : Polynomial R} (hp : p.nvars = n) (hq : q.nvars = n) :
    (p.convertLike q).denote n = q.denote n := by
  have hconvert : (p.ofTermsLike q.terms).denote n = q.denote n := by
    apply denote_eq ((nvars_ofTermsLike _ _).trans hp)
    intro e
    rw [coefficient_ofTermsLike p _ ((length_ofExponents e).trans hp.symm), sumAt_terms,
      coeff_denote hq]
    intro t ht
    rw [hp, ← hq]
    exact length_of_mem_terms ht
  cases p <;> cases q
  · rfl
  · exact hconvert
  · exact hconvert
  · rfl

end PolyIdeal.Polynomial

namespace PolyIdeal

variable {R : Type} [CommRing R] [DecidableEq R] {n : ℕ}

def denotations (n : ℕ) (basis : List (Polynomial R)) : Set (MvPolynomial (Fin n) R) :=
  {F | ∃ g ∈ basis, g.denote n = F}

theorem denote_mem_denotations {basis : List (Polynomial R)} {g : Polynomial R} (hg : g ∈ basis) :
    g.denote n ∈ denotations n basis :=
  ⟨g, hg, rfl⟩

@[simp] theorem denotations_nil : denotations n ([] : List (Polynomial R)) = ∅ := by
  simp [denotations]

theorem denotations_eq_range (basis : List (Polynomial R)) :
    denotations n basis = Set.range fun j => (basis.get j).denote n := by
  ext F
  constructor
  · rintro ⟨g, hg, rfl⟩
    obtain ⟨j, rfl⟩ := List.get_of_mem hg
    exact Set.mem_range_self j
  · rintro ⟨j, rfl⟩
    exact denote_mem_denotations (basis.get_mem j)

theorem denotations_mono {basis basis' : List (Polynomial R)} (h : basis ⊆ basis') :
    denotations n basis ⊆ denotations n basis' := by
  rintro F ⟨g, hg, rfl⟩
  exact denote_mem_denotations (h hg)

theorem denotations_middle (before after : List (Polynomial R)) (g : Polynomial R) :
    denotations n (before ++ g :: after) =
      insert (g.denote n) (denotations n (before ++ after)) := by
  ext F
  simp only [denotations, List.mem_append, List.mem_cons, Set.mem_insert_iff, Set.mem_ofPred_eq]
  constructor
  · rintro ⟨g', hg', rfl⟩
    rcases hg' with hg' | rfl | hg'
    · exact .inr ⟨g', .inl hg', rfl⟩
    · exact .inl rfl
    · exact .inr ⟨g', .inr hg', rfl⟩
  · rintro (rfl | ⟨g', hg', rfl⟩)
    · exact ⟨g, .inr (.inl rfl), rfl⟩
    · exact ⟨g', hg'.imp_right .inr, rfl⟩

theorem denotations_cons (basis : List (Polynomial R)) (g : Polynomial R) :
    denotations n (g :: basis) = insert (g.denote n) (denotations n basis) :=
  denotations_middle [] basis g

theorem denotations_singleton (g : Polynomial R) : denotations n [g] = {g.denote n} := by
  rw [denotations_cons, denotations_nil, insert_empty_eq]

theorem denotations_concat (basis : List (Polynomial R)) (g : Polynomial R) :
    denotations n (basis ++ [g]) = insert (g.denote n) (denotations n basis) := by
  rw [denotations_middle, List.append_nil]

/-- Polynomials in `n` variables of which none is zero. -/
structure Proper (n : ℕ) (basis : List (Polynomial R)) : Prop where
  nvars_eq : ∀ g ∈ basis, g.nvars = n
  denote_ne_zero : ∀ g ∈ basis, g.denote n ≠ 0

namespace Proper

variable {basis basis' : List (Polynomial R)}

theorem of_isZero (hn : ∀ g ∈ basis, g.nvars = n) (hzero : ∀ g ∈ basis, g.isZero = false) :
    Proper n basis where
  nvars_eq := hn
  denote_ne_zero g hg := (Polynomial.isZero_eq_false_iff (hn g hg)).mp (hzero g hg)

theorem ne_zero (h : Proper n basis) {F : MvPolynomial (Fin n) R} (hF : F ∈ denotations n basis) :
    F ≠ 0 := by
  obtain ⟨g, hg, rfl⟩ := hF
  exact h.denote_ne_zero g hg

theorem subset (h : Proper n basis) (hsub : basis' ⊆ basis) : Proper n basis' where
  nvars_eq g hg := h.nvars_eq g (hsub hg)
  denote_ne_zero g hg := h.denote_ne_zero g (hsub hg)

theorem others {before after : List (Polynomial R)} {g : Polynomial R}
    (h : Proper n (before ++ g :: after)) : Proper n (before ++ after) :=
  h.subset ((List.sublist_cons_self g after).append_left before).subset

theorem append (h : Proper n basis) (h' : Proper n basis') : Proper n (basis ++ basis') where
  nvars_eq g hg := (List.mem_append.mp hg).elim (h.nvars_eq g) (h'.nvars_eq g)
  denote_ne_zero g hg := (List.mem_append.mp hg).elim (h.denote_ne_zero g) (h'.denote_ne_zero g)

theorem nil : Proper n ([] : List (Polynomial R)) := ⟨nofun, nofun⟩

theorem singleton {g : Polynomial R} (hn : g.nvars = n) (hne : g.denote n ≠ 0) :
    Proper n [g] where
  nvars_eq g' hg' := by rwa [List.mem_singleton.mp hg']
  denote_ne_zero g' hg' := by rwa [List.mem_singleton.mp hg']

end Proper

end PolyIdeal
