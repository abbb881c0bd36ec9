import PolyIdeal.Proofs.Ideal.NormalForm
import PolyIdeal.Proofs.Polynomial.Leading
import PolyIdeal.Proofs.Traced

/-!
# Leaving out small coefficients

A tolerance for rational coefficients is a rational number. What is above it stays as it is and the
rest is left out, so that a polynomial of which nothing is left out is kept and one that cannot be
reduced still cannot be.
-/

namespace PolyIdeal

private theorem filterM_ok {ε α : Type} {f : α → Except ε Bool} {b : α → Bool} {l : List α}
    (h : ∀ a ∈ l, f a = .ok (b a)) : l.filterM f = .ok (l.filter b) := by
  have go (l acc : List α) (h : ∀ a ∈ l, f a = .ok (b a)) :
      List.filterAuxM f l acc = .ok ((l.filter b).reverse ++ acc) := by
    induction l generalizing acc with
    | nil => rfl
    | cons a l ih =>
      have htail := fun acc => ih acc fun a' ha' => h a' (List.mem_cons_of_mem a ha')
      rw [List.filterAuxM, h a List.mem_cons_self]
      change List.filterAuxM f l (cond (b a) (a :: acc) acc) = _
      rw [htail]
      cases hb : b a <;> simp [hb]
  rw [List.filterM, go l [] h]
  change Except.ok _ = _
  simp

/-- The number that a tolerance for rational coefficients is. -/
def Tolerance.rational? : Tolerance → Option ℚ
  | .number (.integer n) => some n
  | .number (.rational q) => some q
  | _ => none

/-- There is no tolerance, or it is a rational number. -/
def IsRational (tolerance : Option Tolerance) : Prop :=
  ∀ t, tolerance = some t → ∃ q, t.rational? = some q

/-- A coefficient is above the tolerance; without one any but zero is. -/
def Exceeds (tolerance : Option Tolerance) (c : ℚ) : Prop :=
  match tolerance with
  | none => c ≠ 0
  | some t => ∃ q, t.rational? = some q ∧ q < |c|

private theorem within_ok {t : Tolerance} {q : ℚ} (h : t.rational? = some q) (c : ℚ) :
    Coefficient.within t c = .ok (decide (|c| ≤ q)) := by
  have habs : (if c < 0 then -c else c) = |c| := by
    split
    · rw [abs_of_neg ‹_›]
    · rw [abs_of_nonneg (not_lt.mp ‹_›)]
  change Coefficient.rationalWithin t (if c < 0 then -c else c) = _
  rw [habs]
  match t, h with
  | .number (.integer n), h =>
    cases h
    rfl
  | .number (.rational q), h =>
    cases h
    rfl

section Chop

variable {σ : Type} {tolerance : Option Tolerance} {F F' : MvPolynomial σ ℚ}

/-- Nothing is within the tolerance. -/
def IsChopped (tolerance : Option Tolerance) (F : MvPolynomial σ ℚ) : Prop :=
  ∀ e ∈ F.support, Exceeds tolerance (F.coeff e)

/-- What is left when everything within the tolerance is left out. -/
structure IsChop (tolerance : Option Tolerance) (F F' : MvPolynomial σ ℚ) : Prop where
  keeps : ∀ e, Exceeds tolerance (F.coeff e) → F'.coeff e = F.coeff e
  drops : ∀ e, ¬ Exceeds tolerance (F.coeff e) → F'.coeff e = 0

namespace IsChop

variable (h : IsChop tolerance F F')
include h

private theorem coeff_of_mem_support {e : σ →₀ ℕ} (he : e ∈ F'.support) :
    Exceeds tolerance (F.coeff e) ∧ F'.coeff e = F.coeff e := by
  have hexceeds : Exceeds tolerance (F.coeff e) := by
    by_contra hsmall
    exact MvPolynomial.mem_support_iff.mp he (h.drops e hsmall)
  exact ⟨hexceeds, h.keeps e hexceeds⟩

theorem coeff_eq_zero {e : σ →₀ ℕ} (he : F.coeff e = 0) : F'.coeff e = 0 := by
  by_contra hne
  obtain ⟨-, heq⟩ := h.coeff_of_mem_support (MvPolynomial.mem_support_iff.mpr hne)
  exact hne (heq.trans he)

theorem isChopped : IsChopped tolerance F' := by
  intro e he
  obtain ⟨hexceeds, heq⟩ := h.coeff_of_mem_support he
  rwa [heq]

theorem coeff_eq_of_isChopped {G : MvPolynomial σ ℚ} (hG : IsChopped tolerance G) {e : σ →₀ ℕ}
    (he : F.coeff e = G.coeff e) : F'.coeff e = G.coeff e := by
  by_cases hzero : G.coeff e = 0
  · rw [hzero, h.coeff_eq_zero (he.trans hzero)]
  · rw [← he]
    apply h.keeps
    rw [he]
    exact hG e (MvPolynomial.mem_support_iff.mpr hzero)

theorem eq_of_isChopped (hF : IsChopped tolerance F) : F' = F := by
  ext e
  exact h.coeff_eq_of_isChopped hF rfl

theorem irreducible {m : MonomialOrder σ} {G : Set (MvPolynomial σ ℚ)}
    (hF : Irreducible m G F) : Irreducible m G F' := by
  intro e he
  obtain ⟨-, heq⟩ := h.coeff_of_mem_support he
  rw [Cancellable, heq]
  apply hF e
  rwa [MvPolynomial.mem_support_iff, ← heq, ← MvPolynomial.mem_support_iff]

end IsChop

end Chop

namespace Polynomial

open Monomial

variable {n : ℕ}

section Kept

variable {R : Type} [CommRing R] [DecidableEq R] {p : Polynomial R} (hp : p.nvars = n)
  (b : Monomial × R → Bool)

private theorem sumAt_filter_terms (m : Monomial) :
    sumAt (p.terms.filter b) m = if b (m, p.coefficient m) then p.coefficient m else 0 := by
  have hnodup : ((p.terms.filter b).map Prod.fst).Nodup :=
    p.nodup_monomials.sublist (List.filter_sublist.map Prod.fst)
  split
  · rename_i hb
    by_cases hzero : p.coefficient m = 0
    · rw [hzero]
      apply sumAt_of_not_mem
      intro c hc
      obtain ⟨heq, hne⟩ := mem_terms.mp (List.mem_of_mem_filter hc)
      exact hne (heq.symm.trans hzero)
    · exact sumAt_of_mem hnodup (List.mem_filter.mpr ⟨mem_terms.mpr ⟨rfl, hzero⟩, hb⟩)
  · rename_i hb
    apply sumAt_of_not_mem
    intro c hc
    obtain ⟨hmem, hbc⟩ := List.mem_filter.mp hc
    rw [(mem_terms.mp hmem).1] at hb
    exact hb hbc

include hp in
private theorem exists_of_filter_terms :
    ∃ r, (if (p.terms.filter b).length = p.terms.length then p
        else p.ofTermsLike (p.terms.filter b)) = r ∧ r.nvars = n ∧
      ∀ e, (r.denote n).coeff e =
        if b (ofExponents e, (p.denote n).coeff e) then (p.denote n).coeff e else 0 := by
  simp only [coeff_denote hp, ← sumAt_filter_terms]
  split
  · rename_i hlength
    refine ⟨p, rfl, hp, fun e => ?_⟩
    have hall : p.terms.filter b = p.terms := List.filter_sublist.eq_of_length hlength
    rw [hall, sumAt_terms, coeff_denote hp]
  · have hn : (p.ofTermsLike (p.terms.filter b)).nvars = n := (nvars_ofTermsLike _ _).trans hp
    refine ⟨_, rfl, hn, fun e => ?_⟩
    rw [coeff_denote hn, coefficient_ofTermsLike p _ ((length_ofExponents e).trans hp.symm)]
    intro t ht
    exact length_of_mem_terms (List.mem_of_mem_filter ht)

end Kept

variable {tolerance : Option Tolerance} {p : Polynomial ℚ}

private theorem isChop_none (F : MvPolynomial (Fin n) ℚ) : IsChop none F F where
  keeps _ _ := rfl
  drops _ hsmall := not_not.mp hsmall

/-- With a rational tolerance, or without one, small coefficients can be left out. -/
theorem chop_ok (htol : IsRational tolerance) (hp : p.nvars = n) :
    ∃ r, p.chop tolerance = .ok r ∧ r.nvars = n ∧
      IsChop tolerance (p.denote n) (r.denote n) := by
  cases tolerance with
  | none => exact ⟨p, rfl, hp, isChop_none _⟩
  | some t =>
    obtain ⟨q, hq⟩ := htol t rfl
    have hkept : (p.terms.filterM fun term => do return !(← Coefficient.within t term.2)) =
        .ok (p.terms.filter fun term => !decide (|term.2| ≤ q)) := by
      apply filterM_ok
      intro term _
      rw [within_ok hq]
      rfl
    have hexceeds (c : ℚ) : Exceeds (some t) c ↔ (!decide (|c| ≤ q)) = true := by
      simp [Exceeds, hq]
    obtain ⟨r, hr, hrn, hcoeff⟩ :=
      exists_of_filter_terms hp fun term => !decide (|term.2| ≤ q)
    refine ⟨r, ?_, hrn, fun e he => ?_, fun e he => ?_⟩
    · rw [chop, hkept, ← hr]
      rfl
    · rw [hcoeff, if_pos ((hexceeds _).mp he)]
    · rw [hcoeff, if_neg fun hb => he ((hexceeds _).mpr hb)]

def chopOf (tolerance : Option Tolerance) (p : Polynomial ℚ) : Polynomial ℚ :=
  match p.chop tolerance with
  | .ok r => r
  | .error _ => p

theorem chopOf_spec (htol : IsRational tolerance) (hp : p.nvars = n) :
    p.chop tolerance = .ok (chopOf tolerance p) ∧ (chopOf tolerance p).nvars = n ∧
      IsChop tolerance (p.denote n) ((chopOf tolerance p).denote n) := by
  obtain ⟨r, hr, hrn, hchop⟩ := chop_ok htol hp
  have heq : chopOf tolerance p = r := by rw [chopOf, hr]
  rw [heq]
  exact ⟨hr, hrn, hchop⟩

end Polynomial

end PolyIdeal
