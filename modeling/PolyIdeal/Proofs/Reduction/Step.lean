import PolyIdeal.Proofs.Ideal.NormalForm
import PolyIdeal.Proofs.Polynomial.Leading
import PolyIdeal.Proofs.Traced
import PolyIdeal.Reduction.Reducer

/-!
# Elementary reductions

A reducer without a tolerance holds the leading terms of its basis, and looks for a multiple of one
of them from the highest monomial down. A cancellation never leaves a rest over exact
coefficients.
-/

namespace PolyIdeal.Reducer

open Monomial MonomialOrder PolyIdeal.Polynomial

variable {R : Type} [CommRing R] [DecidableEq R] [Coefficient R] {n : ℕ} {order : Order}
  (h : order.accepts n = true)

/-- The leading data of a polynomial other than zero. -/
noncomputable def divisorOf (g : Polynomial R) : Divisor R :=
  .polynomial g (ofExponents ((order.monomialOrder n h).degree (g.denote n)))
    ((order.monomialOrder n h).leadingCoeff (g.denote n))

/-- A reducer modulo a basis in `n` variables, without a tolerance. -/
structure Over (basis : List (Polynomial R)) (r : Reducer R) : Prop where
  proper : Proper n basis
  order_eq : r.order = order
  tolerance_eq : r.tolerance = none
  nvars_eq : ∀ k, r.nvars = some k → k = n
  divisors_eq : r.divisors = basis.map (divisorOf h)

omit [Coefficient R] in
theorem divisor_ok {g : Polynomial R} (hn : g.nvars = n) (hne : g.denote n ≠ 0) :
    divisor order g = .ok (divisorOf h g) := by
  rw [divisor, (isZero_eq_false_iff hn).mpr hne, leadingTerm_ok h hn hne]
  rfl

theorem distinctArities_eq {ns : List ℕ} (hns : ∀ k ∈ ns, k = n) :
    distinctArities ns = [] ∨ distinctArities ns = [n] := by
  have go (l : List ℕ) (hl : ∀ k ∈ l, k = n) (rest : List ℕ) (hrest : rest = [] ∨ rest = [n]) :
      l.foldr (fun n rest => if rest.head? = some n then rest else n :: rest) rest = [] ∨
        l.foldr (fun n rest => if rest.head? = some n then rest else n :: rest) rest = [n] := by
    induction l with
    | nil => exact hrest
    | cons k l ih =>
      rw [List.foldr_cons, hl k (by simp)]
      rcases ih fun x hx => hl x (List.mem_cons_of_mem _ hx) with heq | heq <;> rw [heq] <;> simp
  exact go _ (fun k hk => hns k (List.mem_mergeSort.mp hk)) [] (.inl rfl)

private theorem commonArity_ok {ns : List ℕ} (hns : ∀ k ∈ ns, k = n) :
    ∃ nvars, commonArity ns = .ok nvars ∧ ∀ k, nvars = some k → k = n := by
  rcases distinctArities_eq hns with heq | heq
  · exact ⟨none, by rw [commonArity, heq], fun k hk => nomatch hk⟩
  · exact ⟨some n, by rw [commonArity, heq], fun k hk => (Option.some.inj hk).symm⟩

section Basis

variable {basis : List (Polynomial R)} (hbasis : Proper n basis)
include hbasis

omit [Coefficient R] in
theorem ofElements_ok :
    ∃ r, ofElements order none (basis.map (element order)) = .ok r ∧ r.Over h basis := by
  have hdivisors : (basis.map (element order)).mapM Element.divisor =
      .ok (basis.map (divisorOf h)) := by
    rw [List.mapM_map]
    apply mapM_ok
    intro g hg
    exact divisor_ok h (hbasis.nvars_eq g hg) (hbasis.denote_ne_zero g hg)
  have harities : ∀ k ∈ (basis.map (element order)).map (fun e => e.polynomial.nvars), k = n := by
    intro k hk
    rw [List.map_map] at hk
    obtain ⟨g, hg, rfl⟩ := List.mem_map.mp hk
    exact hbasis.nvars_eq g hg
  obtain ⟨nvars, hnvars, hk⟩ := commonArity_ok harities
  refine ⟨{ order, tolerance := none, nvars, divisors := basis.map (divisorOf h) }, ?_, ?_⟩
  · rw [ofElements, hdivisors, hnvars]
    rfl
  · exact ⟨hbasis, rfl, rfl, hk, rfl⟩

omit [Coefficient R] in
theorem ofBasis_ok : ∃ r, ofBasis order none basis = .ok r ∧ r.Over h basis :=
  ofElements_ok h hbasis

end Basis

section Cancel

variable [ExactCoefficient R] {f : Polynomial R} (hf : f.nvars = n)

/-- What looking for a divisor that cancels a monomial has to find. -/
def FindsCancellation (basis : List (Polynomial R)) (f : Polynomial R) (d : Fin n →₀ ℕ)
    (found : Except Failure (Option (Polynomial R × Polynomial R))) : Prop :=
  (found = .ok none ∧
      ¬ Cancellable (order.monomialOrder n h) (denotations n basis) (f.denote n) d) ∨
    ∃ g f', found = .ok (some (g, f')) ∧ f'.nvars = n ∧
      Cancels (order.monomialOrder n h) (denotations n basis) (f.denote n) d (f'.denote n)

omit [Coefficient R] [ExactCoefficient R] in
private theorem FindsCancellation.skip {basis : List (Polynomial R)} {g : Polynomial R}
    {d : Fin n →₀ ℕ} {found : Except Failure (Option (Polynomial R × Polynomial R))}
    (hfound : FindsCancellation h basis f d found)
    (hno : ¬ ((order.monomialOrder n h).degree (g.denote n) ≤ d ∧
      (order.monomialOrder n h).leadingCoeff (g.denote n) ∣ (f.denote n).coeff d)) :
    FindsCancellation h (g :: basis) f d found := by
  rw [FindsCancellation, denotations_cons]
  rcases hfound with ⟨hnone, hall⟩ | ⟨g', f', hsome, hn', hcancels⟩
  · refine .inl ⟨hnone, ?_⟩
    intro hc
    rcases cancellable_insert.mp hc with hg | hrest
    · exact hno hg
    · exact hall hrest
  · exact .inr ⟨g', f', hsome, hn', hcancels.insert _⟩

omit [ExactCoefficient R] in
include hf in
/-- The multiple that makes the coefficients equal cancels the monomial without a rest, whatever the
tolerance is. -/
theorem cancel_ok {g : Polynomial R} (hg : g.nvars = n) {d : Fin n →₀ ℕ} {q : R}
    (hle : (order.monomialOrder n h).degree (g.denote n) ≤ d)
    (hq : q * (order.monomialOrder n h).leadingCoeff (g.denote n) = (f.denote n).coeff d) :
    ∃ f', (∀ tolerance, (do
        let p ← f.sub (← g.mulTerm
          (ofExponents (d - (order.monomialOrder n h).degree (g.denote n))) q)
        return some (g, ← cancelled tolerance f g p (ofExponents d))) = .ok (some (g, f'))) ∧
      f'.nvars = n ∧ f'.denote n = f.denote n -
        MvPolynomial.monomial (d - (order.monomialOrder n h).degree (g.denote n)) q *
          g.denote n := by
  obtain ⟨t, ht, htn, htd⟩ := mulTerm_ok hg (d - (order.monomialOrder n h).degree (g.denote n)) q
  obtain ⟨f', hf', hfn, hfd⟩ := sub_ok hf htn
  rw [htd] at hfd
  have hcancels : Cancels (order.monomialOrder n h) {g.denote n} (f.denote n) d (f'.denote n) :=
    ⟨g.denote n, rfl, hle, q, hq, hfd⟩
  have hzero : f'.coefficient (ofExponents d) = 0 := by
    rw [← coeff_denote hfn]
    exact hcancels.coeff_self
  refine ⟨f', fun tolerance => ?_, hfn, hfd⟩
  simp only [ht, hf', cancelled, hzero, if_true, bind, Except.bind]
  rfl

include hf in
theorem cancel?_spec {basis : List (Polynomial R)} (hbasis : Proper n basis) (d : Fin n →₀ ℕ) :
    FindsCancellation h basis f d (cancel? none f (ofExponents d)
      (f.coefficient (ofExponents d)) (basis.map (divisorOf h))) := by
  induction basis with
  | nil =>
    refine .inl ⟨rfl, ?_⟩
    rintro ⟨G, ⟨g, hg, -⟩, -⟩
    cases hg
  | cons g basis ih =>
    have hg : g.nvars = n := hbasis.nvars_eq g (by simp)
    have hlc : (order.monomialOrder n h).leadingCoeff (g.denote n) ≠ 0 :=
      (order.monomialOrder n h).leadingCoeff_ne_zero_iff.mpr
        (hbasis.denote_ne_zero g (by simp))
    have htail := ih (hbasis.subset (List.subset_cons_self g basis))
    rw [List.map_cons, cancel?]
    simp only [divisorOf, Divisor.leadingMonomial, div?_ofExponents]
    by_cases hle : (order.monomialOrder n h).degree (g.denote n) ≤ d
    · rw [if_pos hle]
      cases hquo : Coefficient.exquo? (f.coefficient (ofExponents d))
          ((order.monomialOrder n h).leadingCoeff (g.denote n)) with
      | none =>
        refine htail.skip h ?_
        rintro ⟨-, k, hk⟩
        rw [coeff_denote hf, mul_comm] at hk
        rw [ExactCoefficient.exquo?_eq_some.mpr ⟨hlc, hk.symm⟩] at hquo
        cases hquo
      | some q =>
        obtain ⟨-, hq⟩ := ExactCoefficient.exquo?_eq_some.mp hquo
        rw [← coeff_denote hf] at hq
        obtain ⟨f', hok, hfn, hfd⟩ := cancel_ok h hf hg hle hq
        refine .inr ⟨g, f', hok none, hfn, g.denote n, ?_, hle, q, hq, hfd⟩
        exact denote_mem_denotations (by simp)
    · rw [if_neg hle]
      exact htail.skip h fun hand => hle hand.1

/-- What looking for the first monomial that can be cancelled has to find. -/
def FindsFirst (basis : List (Polynomial R)) (f : Polynomial R) {ms : List Monomial}
    (found : Except Failure (Option (Cancellation R ms))) : Prop :=
  (found = .ok none ∧ ∀ e, ofExponents e ∈ ms →
      ¬ Cancellable (order.monomialOrder n h) (denotations n basis) (f.denote n) e) ∨
    ∃ s d, found = .ok (some s) ∧ s.monomial = ofExponents d ∧ s.outcome.nvars = n ∧
      Cancels (order.monomialOrder n h) (denotations n basis) (f.denote n) d
        (s.outcome.denote n) ∧
      ∀ e, ofExponents e ∈ ms → d ≺[order.monomialOrder n h] e →
        ¬ Cancellable (order.monomialOrder n h) (denotations n basis) (f.denote n) e

include hf in
/-- Among monomials in descending order the highest that can be cancelled is. -/
theorem cancelFirst?_spec {basis : List (Polynomial R)} {r : Reducer R} (hr : r.Over h basis)
    {ms : List Monomial} (hms : ∀ x ∈ ms, x.length = n)
    (hsorted : ms.Pairwise fun a b => r.order.rank b ≤ r.order.rank a) :
    FindsFirst h basis f (r.cancelFirst? f ms) := by
  rw [hr.order_eq] at hsorted
  induction ms with
  | nil => exact .inl ⟨rfl, fun e he => nomatch he⟩
  | cons x ms ih =>
    obtain ⟨d, rfl⟩ := exists_ofExponents (hms x (by simp))
    obtain ⟨hhead, hrest⟩ := List.pairwise_cons.mp hsorted
    have htail := ih (fun y hy => hms y (List.mem_cons_of_mem _ hy)) hrest
    have hcancel := cancel?_spec h hf hr.proper d
    rw [← hr.divisors_eq, ← hr.tolerance_eq] at hcancel
    rw [cancelFirst?]
    rcases hcancel with ⟨hnone, hno⟩ | ⟨g, f', hsome, hfn, hcancels⟩
    · have hcons (e : Fin n →₀ ℕ) (he : ofExponents e ∈ ofExponents d :: ms) :
          e = d ∨ ofExponents e ∈ ms := by simpa using he
      rw [hnone]
      rcases htail with ⟨hnone', hall⟩ | ⟨s, d', hsome', hs, hsn, hcancels, hall⟩
      · refine .inl ⟨by rw [hnone'], ?_⟩
        intro e he
        rcases hcons e he with rfl | he
        · exact hno
        · exact hall e he
      · refine .inr ⟨_, d', by rw [hsome'], hs, hsn, hcancels, ?_⟩
        intro e he hlt
        rcases hcons e he with rfl | he
        · exact hno
        · exact hall e he hlt
    · rw [hsome]
      refine .inr ⟨_, d, rfl, rfl, hfn, hcancels, ?_⟩
      intro e he hlt
      exfalso
      rcases List.mem_cons.mp he with heq | he
      · rw [ofExponents_inj.mp heq] at hlt
        exact lt_irrefl _ hlt
      · exact not_le_of_gt hlt (hhead _ he)

end Cancel

end PolyIdeal.Reducer
