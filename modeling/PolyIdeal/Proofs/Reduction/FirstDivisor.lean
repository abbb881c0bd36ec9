import PolyIdeal.Proofs.Ideal.FirstMultiple
import PolyIdeal.Proofs.Reduction.NormalForm

/-!
# Reduction by first divisors

Over a field a monomial is always cancelled by the first divisor there is, so that a reduction only
subtracts multiples of first divisors. The normal form is the irreducible polynomial that differs
from the given one by a combination of them.
-/

namespace PolyIdeal.Reducer

open Monomial MonomialOrder PolyIdeal.Polynomial

variable {R : Type} [CommRing R] [DecidableEq R] [Coefficient R] {r : Reducer R}
  {f f' : Polynomial R}

private theorem cancel?_of_cancelFirst? {ms : List Monomial} {s : Cancellation R ms}
    (hs : r.cancelFirst? f ms = .ok (some s)) :
    cancel? r.tolerance f s.monomial (f.coefficient s.monomial) r.divisors =
      .ok (some (s.divisor, s.outcome)) := by
  induction ms with
  | nil => cases hs
  | cons m ms ih =>
    rw [cancelFirst?] at hs
    split at hs
    · cases hs
    · rename_i hfound
      obtain rfl := Option.some.inj (Except.ok.inj hs)
      exact hfound
    · split at hs
      · cases hs
      · cases hs
      · rename_i hfound
        obtain rfl := Option.some.inj (Except.ok.inj hs)
        exact ih hfound

section Run

/-- One monomial of a polynomial is cancelled. -/
def Steps (r : Reducer R) (f f' : Polynomial R) : Prop :=
  ∃ m ∈ f.monomials, ∃ g,
    cancel? r.tolerance f m (f.coefficient m) r.divisors = .ok (some (g, f'))

private theorem steps_of_cancelFirst? {ms : List Monomial} {s : Cancellation R ms}
    (hms : ms ⊆ f.monomials) (hs : r.cancelFirst? f ms = .ok (some s)) : r.Steps f s.outcome :=
  ⟨s.monomial, hms s.mem, s.divisor, cancel?_of_cancelFirst? hs⟩

private theorem normalFormBelow_steps {bound : Monomial}
    (hresult : (r.normalFormBelow bound f).result = .ok f') :
    Relation.ReflTransGen r.Steps f f' := by
  induction bound, f using normalFormBelow.induct r with
  | case1 bound f e he =>
    rw [normalFormBelow, he] at hresult
    cases hresult
  | case2 bound f hnone =>
    rw [normalFormBelow, hnone] at hresult
    obtain rfl := Except.ok.inj hresult
    exact .refl
  | case3 bound f s hs hbelow ih =>
    rw [normalFormBelow, hs] at hresult
    refine .head (steps_of_cancelFirst? ?_ hs) (ih hresult)
    intro m hm
    exact (r.order.descending_perm _).subset (List.mem_of_mem_filter hm)

/-- A normal form is reached by elementary reductions. -/
theorem normalForm_steps (hresult : (r.normalForm f).result = .ok f') :
    Relation.ReflTransGen r.Steps f f' := by
  rw [normalForm] at hresult
  split at hresult
  · cases hresult
  · split at hresult
    · cases hresult
    · obtain rfl := Except.ok.inj hresult
      exact .refl
    · rename_i hs
      exact .head (steps_of_cancelFirst? (r.order.descending_perm _).subset hs)
        (normalFormBelow_steps hresult)

end Run

variable [FieldCoefficient R] {n : ℕ} {order : Order} (h : order.accepts n = true)
  {basis : List (Polynomial R)}

private theorem cancel?_first (hbasis : Proper n basis) (hf : f.nvars = n) {d : Fin n →₀ ℕ}
    {g : Polynomial R} (hfound : cancel? none f (ofExponents d) (f.coefficient (ofExponents d))
      (basis.map (divisorOf h)) = .ok (some (g, f'))) :
    f'.nvars = n ∧ ∃ G q,
      firstDivisor? (order.monomialOrder n h) (basis.map (denote n)) d = some G ∧
      f.denote n - f'.denote n =
        MvPolynomial.monomial (d - (order.monomialOrder n h).degree G) q * G := by
  induction basis with
  | nil => cases hfound
  | cons g' basis ih =>
    have hg : g'.nvars = n := hbasis.nvars_eq g' (by simp)
    have hlc : (order.monomialOrder n h).leadingCoeff (g'.denote n) ≠ 0 :=
      (order.monomialOrder n h).leadingCoeff_ne_zero_iff.mpr
        (hbasis.denote_ne_zero g' (by simp))
    rw [List.map_cons, cancel?] at hfound
    simp only [divisorOf, Divisor.leadingMonomial, div?_ofExponents] at hfound
    rw [List.map_cons]
    by_cases hle : (order.monomialOrder n h).degree (g'.denote n) ≤ d
    · obtain ⟨q, hquo, hq⟩ := Coefficient.exquo?_ok hlc (f.coefficient (ofExponents d))
      rw [← coeff_denote hf] at hq
      obtain ⟨f'', hok, hfn, hfd⟩ := cancel_ok h hf hg hle hq
      rw [if_pos hle] at hfound
      simp only [hquo] at hfound
      obtain ⟨-, rfl⟩ := Prod.mk.inj (Option.some.inj (Except.ok.inj (hfound.symm.trans (hok _))))
      refine ⟨hfn, g'.denote n, q, firstDivisor?_cons_of_le hle, ?_⟩
      rw [hfd, sub_sub_cancel]
    · rw [if_neg hle] at hfound
      rw [firstDivisor?_cons_of_not_le hle]
      exact ih (hbasis.subset (List.subset_cons_self g' basis)) hfound

variable (hr : r.Over h basis)
include hr

private theorem Steps.sub_mem (hstep : r.Steps f f') (hf : f.nvars = n) :
    f'.nvars = n ∧ f.denote n - f'.denote n ∈
      firstSpan (order.monomialOrder n h) (basis.map (denote n)) := by
  obtain ⟨m, hm, g, hfound⟩ := hstep
  obtain ⟨d, rfl⟩ := exists_ofExponents ((length_of_mem_monomials hm).trans hf)
  rw [hr.tolerance_eq, hr.divisors_eq] at hfound
  obtain ⟨hfn, G, q, hG, hsub⟩ := cancel?_first h hr.proper hf hfound
  rw [hsub]
  exact ⟨hfn, monomial_mul_mem_firstSpan hG q⟩

private theorem sub_mem_of_steps (hsteps : Relation.ReflTransGen r.Steps f f') (hf : f.nvars = n) :
    f'.nvars = n ∧ f.denote n - f'.denote n ∈
      firstSpan (order.monomialOrder n h) (basis.map (denote n)) := by
  induction hsteps with
  | refl =>
    rw [sub_self]
    exact ⟨hf, Submodule.zero_mem _⟩
  | @tail f' f'' _ hstep ih =>
    obtain ⟨hfn', hmem⟩ := ih
    obtain ⟨hfn'', hmem'⟩ := hstep.sub_mem h hr hfn'
    rw [← sub_add_sub_cancel (f.denote n) (f'.denote n)]
    exact ⟨hfn'', Submodule.add_mem _ hmem hmem'⟩

/-- The normal form without a monomial that has a divisor, by multiples of first divisors. -/
theorem normalForm_first (hf : f.nvars = n) :
    ∃ f' : Polynomial R, (r.normalForm f).result = .ok f' ∧ f'.nvars = n ∧
      f.denote n - f'.denote n ∈
        firstSpan (order.monomialOrder n h) (basis.map (denote n)) ∧
      ∀ e ∈ (f'.denote n).support, ∀ g ∈ basis.map (denote n),
        ¬ (order.monomialOrder n h).degree g ≤ e := by
  obtain ⟨f', hresult, hfn, hnf⟩ := normalForm_spec h hr hf
  refine ⟨f', hresult, hfn, (sub_mem_of_steps h hr (normalForm_steps hresult) hf).2, ?_⟩
  intro e he G hG hle
  obtain ⟨g, hg, rfl⟩ := List.mem_map.mp hG
  have hmem : g.denote n ∈ denotations n basis := denote_mem_denotations hg
  exact hnf.irreducible e he ⟨_, hmem, hle, (hr.proper.isUnit_leadingCoeff _ _ hmem).dvd⟩

end PolyIdeal.Reducer
