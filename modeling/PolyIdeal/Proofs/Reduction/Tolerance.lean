import PolyIdeal.Proofs.Reduction.NormalForm

/-!
# Reduction with a tolerance

A tolerance is there for what a cancellation leaves of the monomial that it cancels. Over exact
coefficients nothing is left, so every reduction comes out as it does without a tolerance.
-/

namespace PolyIdeal.Reducer

open Monomial MonomialOrder PolyIdeal.Polynomial

variable {R : Type} [CommRing R] [DecidableEq R] [Coefficient R] {n : ℕ} {order : Order}
  (h : order.accepts n = true) {basis : List (Polynomial R)} {r : Reducer R}

omit [Coefficient R] in
theorem ofElements_tolerance (hbasis : Proper n basis) (tolerance : Option Tolerance) :
    ∃ r : Reducer R, r.Over h basis ∧
      ofElements order tolerance (basis.map (element order)) = .ok { r with tolerance } := by
  obtain ⟨r, hok, hr⟩ := ofElements_ok h hbasis
  refine ⟨r, hr, ?_⟩
  rw [ofElements] at hok ⊢
  cases hdivisors : (basis.map (element order)).mapM Element.divisor with
  | error e =>
    rw [hdivisors] at hok
    cases hok
  | ok divisors =>
    cases harity : commonArity ((basis.map (element order)).map fun e => e.polynomial.nvars) with
    | error e =>
      rw [hdivisors, harity] at hok
      cases hok
    | ok nvars =>
      rw [hdivisors, harity] at hok
      cases hok
      rfl

variable [ExactCoefficient R] {f : Polynomial R}

private theorem cancel?_tolerance (hbasis : Proper n basis) (hf : f.nvars = n) (d : Fin n →₀ ℕ)
    (tolerance : Option Tolerance) :
    cancel? tolerance f (ofExponents d) (f.coefficient (ofExponents d))
        (basis.map (divisorOf h)) =
      cancel? none f (ofExponents d) (f.coefficient (ofExponents d))
        (basis.map (divisorOf h)) := by
  induction basis with
  | nil => rfl
  | cons g basis ih =>
    have htail := ih (hbasis.subset (List.subset_cons_self g basis))
    rw [List.map_cons, cancel?, cancel?]
    simp only [divisorOf, Divisor.leadingMonomial, div?_ofExponents, htail]
    by_cases hle : (order.monomialOrder n h).degree (g.denote n) ≤ d
    · rw [if_pos hle]
      cases hquo : Coefficient.exquo? (f.coefficient (ofExponents d))
          ((order.monomialOrder n h).leadingCoeff (g.denote n)) with
      | none => rfl
      | some q =>
        obtain ⟨-, hq⟩ := ExactCoefficient.exquo?_eq_some.mp hquo
        rw [← coeff_denote hf] at hq
        obtain ⟨f', hok, -⟩ := cancel_ok h hf (hbasis.nvars_eq g (by simp)) hle hq
        exact (hok tolerance).trans (hok none).symm
    · rw [if_neg hle]

section Run

variable (hr : r.Over h basis) (tolerance : Option Tolerance)
include hr

theorem cancelFirst?_tolerance (hf : f.nvars = n) {ms : List Monomial}
    (hms : ∀ m ∈ ms, m.length = n) :
    ({ r with tolerance } : Reducer R).cancelFirst? f ms = r.cancelFirst? f ms := by
  induction ms with
  | nil => rfl
  | cons m ms ih =>
    obtain ⟨d, rfl⟩ := exists_ofExponents (hms m (by simp))
    have hcancel := cancel?_tolerance h hr.proper hf d tolerance
    rw [← hr.divisors_eq, ← hr.tolerance_eq] at hcancel
    rw [cancelFirst?, cancelFirst?, ih fun m hm => hms m (List.mem_cons_of_mem _ hm)]
    simp only [hcancel]

private theorem cancelFirst?_descending (hf : f.nvars = n) (b : Monomial → Bool) :
    (r.cancelFirst? f ((r.order.descending f.monomials).filter b) = .ok none ∨
        ∃ s, r.cancelFirst? f ((r.order.descending f.monomials).filter b) = .ok (some s) ∧
          s.outcome.nvars = n) ∧
      ({ r with tolerance } : Reducer R).cancelFirst? f
          ((r.order.descending f.monomials).filter b) =
        r.cancelFirst? f ((r.order.descending f.monomials).filter b) := by
  have hlength : ∀ m ∈ (r.order.descending f.monomials).filter b, m.length = n := fun m hm =>
    length_of_mem_descending hf (List.mem_of_mem_filter hm)
  refine ⟨?_, cancelFirst?_tolerance h hr tolerance hf hlength⟩
  rcases cancelFirst?_spec h hf hr hlength ((r.order.descending_pairwise f.monomials).filter b)
    with ⟨hnone, -⟩ | ⟨s, d, hsome, -, hn, -⟩
  · exact .inl hnone
  · exact .inr ⟨s, hsome, hn⟩

private theorem result_normalFormBelow_tolerance (bound : Monomial) (f : Polynomial R)
    (hf : f.nvars = n) :
    (({ r with tolerance } : Reducer R).normalFormBelow bound f).result =
      (r.normalFormBelow bound f).result := by
  induction bound, f using normalFormBelow.induct r with
  | case1 bound f e he =>
    obtain ⟨hnone | ⟨s, hsome, -⟩, -⟩ :=
      cancelFirst?_descending h hr tolerance hf (r.order.Below · bound)
    · cases he.symm.trans hnone
    · cases he.symm.trans hsome
  | case2 bound f hnone =>
    obtain ⟨-, hsame⟩ := cancelFirst?_descending h hr tolerance hf (r.order.Below · bound)
    rw [result_normalFormBelow_none rfl hnone]
    exact result_normalFormBelow_none rfl (hsame.trans hnone)
  | case3 bound f s hs hbelow ih =>
    obtain ⟨hnone | ⟨s', hsome, hn⟩, hsame⟩ :=
      cancelFirst?_descending h hr tolerance hf (r.order.Below · bound)
    · cases hs.symm.trans hnone
    · cases hs.symm.trans hsome
      rw [result_normalFormBelow_some rfl hs]
      exact (result_normalFormBelow_some rfl (hsame.trans hs)).trans (ih hn)

theorem result_normalForm_tolerance (hf : f.nvars = n) :
    (({ r with tolerance } : Reducer R).normalForm f).result = (r.normalForm f).result := by
  have hcheck := check_ok h hr hf
  have hcheck' : ({ r with tolerance } : Reducer R).check f = .ok () := hcheck
  have hlength : ∀ m ∈ r.order.descending f.monomials, m.length = n := fun _ hm =>
    length_of_mem_descending hf hm
  have hsame := cancelFirst?_tolerance h hr tolerance hf hlength
  rcases cancelFirst?_start h hr hf with ⟨hnone, -⟩ | ⟨s, d, hsome, -, hn, -⟩
  · rw [result_normalForm_none hcheck rfl hnone]
    exact result_normalForm_none hcheck' rfl (hsame.trans hnone)
  · rw [result_normalForm_some hcheck rfl hsome]
    exact (result_normalForm_some hcheck' rfl (hsame.trans hsome)).trans
      (result_normalFormBelow_tolerance h hr tolerance _ _ hn)

end Run

end PolyIdeal.Reducer
