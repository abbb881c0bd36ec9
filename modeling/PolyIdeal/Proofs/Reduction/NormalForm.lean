import PolyIdeal.Proofs.Reduction.Step

/-!
# Reduction to a normal form

Each step cancels a monomial below the one before, and what lies above stays irreducible. So the
monomials descend until none can be cancelled, and the multiples that were subtracted never lead
beyond the polynomial.
-/

namespace PolyIdeal.Reducer

open Monomial MonomialOrder PolyIdeal.Polynomial

variable {R : Type} [CommRing R] [DecidableEq R] [Coefficient R] {n : ℕ} {order : Order}
  (h : order.accepts n = true)

variable {basis : List (Polynomial R)} {r : Reducer R}

omit [Coefficient R] in
theorem check_ok (hr : r.Over h basis) {f : Polynomial R} (hf : f.nvars = n) :
    r.check f = .ok () := by
  have hcheck := check_monomials h hf
  rw [check, hr.order_eq]
  cases hk : r.nvars with
  | none => exact hcheck
  | some k =>
    obtain rfl := hr.nvars_eq k hk
    simp only [hf, ne_eq, not_true_eq_false, if_false]
    exact hcheck

section Unfold

variable {f : Polynomial R} {bound : Monomial} {ms : List Monomial} {s : Cancellation R ms}

theorem result_normalFormBelow_none
    (hms : (r.order.descending f.monomials).filter (r.order.Below · bound) = ms)
    (hs : r.cancelFirst? f ms = .ok none) : (r.normalFormBelow bound f).result = .ok f := by
  subst hms
  rw [normalFormBelow, hs]
  rfl

theorem result_normalFormBelow_some
    (hms : (r.order.descending f.monomials).filter (r.order.Below · bound) = ms)
    (hs : r.cancelFirst? f ms = .ok (some s)) :
    (r.normalFormBelow bound f).result = (r.normalFormBelow s.monomial s.outcome).result := by
  subst hms
  rw [normalFormBelow, hs]
  rfl

theorem result_normalFormBelow_error {e : Failure}
    (hms : (r.order.descending f.monomials).filter (r.order.Below · bound) = ms)
    (hs : r.cancelFirst? f ms = .error e) : (r.normalFormBelow bound f).result = .error e := by
  subst hms
  rw [normalFormBelow, hs]
  rfl

theorem result_normalForm_refused {e : Failure} (hcheck : r.check f = .error e) :
    (r.normalForm f).result = .error e := by
  rw [normalForm, hcheck]
  rfl

variable (hcheck : r.check f = .ok ()) (hms : r.order.descending f.monomials = ms)
include hcheck hms

theorem result_normalForm_error {e : Failure} (hs : r.cancelFirst? f ms = .error e) :
    (r.normalForm f).result = .error e := by
  subst hms
  rw [normalForm, hcheck, hs]
  rfl

theorem result_normalForm_none (hs : r.cancelFirst? f ms = .ok none) :
    (r.normalForm f).result = .ok f := by
  subst hms
  rw [normalForm, hcheck, hs]
  rfl

theorem result_normalForm_some (hs : r.cancelFirst? f ms = .ok (some s)) :
    (r.normalForm f).result = (r.normalFormBelow s.monomial s.outcome).result := by
  subst hms
  rw [normalForm, hcheck, hs]
  rfl

end Unfold

/-- What reduction to a normal form is for: no term that is left is a multiple of a leading term of
the basis, and no multiple that was subtracted leads beyond the polynomial. -/
structure StandardReduction (order : Order) (n : ℕ) (basis : List (Polynomial R))
    (f f' : Polynomial R) : Prop where
  nvars_eq : f'.nvars = n
  irreducible : ∀ m c, (m, c) ∈ f'.terms → ∀ g ∈ basis, ∃ lm lc,
    g.leadingTerm order = .ok (lm, lc) ∧ ¬ (Monomial.divides lm m = true ∧ lc ∣ c)
  exists_quotients : ∃ q : Fin basis.length → MvPolynomial (Fin n) R,
    f.denote n = f'.denote n + ∑ j, q j * (basis.get j).denote n ∧
    ∀ j, q j * (basis.get j).denote n ≠ 0 → ∃ lf, f.leadingMonomial order = .ok lf ∧
      ∀ e ∈ (q j * (basis.get j).denote n).support,
        order.compare (ofExponents e) lf ≠ .gt

section Run

variable [ExactCoefficient R] (hr : r.Over h basis)
include hr

/-- Where nothing outside the range of a search can be cancelled, a search finds the highest monomial
that can be, and afterwards nothing from there on can be cancelled. -/
theorem cancelFirst?_range {f : Polynomial R} (hf : f.nvars = n) {b : Monomial → Bool}
    (houtside : ∀ e ∈ (f.denote n).support, b (ofExponents e) = false →
      ¬ Cancellable (order.monomialOrder n h) (denotations n basis) (f.denote n) e) :
    (r.cancelFirst? f ((r.order.descending f.monomials).filter b) = .ok none ∧
        Irreducible (order.monomialOrder n h) (denotations n basis) (f.denote n)) ∨
      ∃ s d, r.cancelFirst? f ((r.order.descending f.monomials).filter b) = .ok (some s) ∧
        s.monomial = ofExponents d ∧ s.outcome.nvars = n ∧ d ∈ (f.denote n).support ∧
        b (ofExponents d) = true ∧
        Cancels (order.monomialOrder n h) (denotations n basis) (f.denote n) d
          (s.outcome.denote n) ∧
        ∀ e ∈ (s.outcome.denote n).support, d ≼[order.monomialOrder n h] e →
          ¬ Cancellable (order.monomialOrder n h) (denotations n basis) (s.outcome.denote n) e := by
  have hmem (e : Fin n →₀ ℕ) : ofExponents e ∈ (r.order.descending f.monomials).filter b ↔
      e ∈ (f.denote n).support ∧ b (ofExponents e) = true := by
    rw [List.mem_filter, mem_descending_iff hf]
  have hfirst := cancelFirst?_spec h hf hr
    (fun y hy => length_of_mem_descending hf (List.mem_of_mem_filter hy))
    ((r.order.descending_pairwise f.monomials).filter b)
  rcases hfirst with ⟨hnone, hall⟩ | ⟨s, d, hsome, hs, hsn, hcancels, hall⟩
  · refine .inl ⟨hnone, fun e he => ?_⟩
    cases hb : b (ofExponents e) with
    | false => exact houtside e he hb
    | true => exact hall e ((hmem e).mpr ⟨he, hb⟩)
  · obtain ⟨hd, hbd⟩ := (hmem d).mp (hs ▸ s.mem)
    refine .inr ⟨s, d, hsome, hs, hsn, hd, hbd, hcancels,
      hcancels.not_cancellable fun e he hde => ?_⟩
    cases hb : b (ofExponents e) with
    | false => exact houtside e he hb
    | true => exact hall e ((hmem e).mpr ⟨he, hb⟩) hde

theorem cancelFirst?_start {f : Polynomial R} (hf : f.nvars = n) :
    (r.cancelFirst? f (r.order.descending f.monomials) = .ok none ∧
        Irreducible (order.monomialOrder n h) (denotations n basis) (f.denote n)) ∨
      ∃ s d, r.cancelFirst? f (r.order.descending f.monomials) = .ok (some s) ∧
        s.monomial = ofExponents d ∧ s.outcome.nvars = n ∧ d ∈ (f.denote n).support ∧
        Cancels (order.monomialOrder n h) (denotations n basis) (f.denote n) d
          (s.outcome.denote n) ∧
        ∀ e ∈ (s.outcome.denote n).support, d ≼[order.monomialOrder n h] e →
          ¬ Cancellable (order.monomialOrder n h) (denotations n basis) (s.outcome.denote n) e := by
  have hall : (r.order.descending f.monomials).filter (fun _ => true) =
      r.order.descending f.monomials := by simp
  have hfirst := cancelFirst?_range h hr hf (b := fun _ => true) (by simp)
  rw [hall] at hfirst
  rcases hfirst with hnone | ⟨s, d, hsome, hs, hsn, hd, -, hcancels, hrest⟩
  · exact .inl hnone
  · exact .inr ⟨s, d, hsome, hs, hsn, hd, hcancels, hrest⟩

omit [Coefficient R] [ExactCoefficient R] in
theorem below_eq_true_iff {b e : Fin n →₀ ℕ} :
    decide (r.order.Below (ofExponents e) (ofExponents b)) = true ↔
      e ≺[order.monomialOrder n h] b := by
  rw [decide_eq_true_iff, hr.order_eq, Order.below_ofExponents (h := h)]

omit [Coefficient R] [ExactCoefficient R] in
theorem below_eq_false_iff {b e : Fin n →₀ ℕ} :
    decide (r.order.Below (ofExponents e) (ofExponents b)) = false ↔
      b ≼[order.monomialOrder n h] e := by
  rw [← Bool.not_eq_true, below_eq_true_iff h hr, not_lt]

private theorem normalFormBelow_spec (b : Fin n →₀ ℕ) (f : Polynomial R) (hf : f.nvars = n)
    (habove : ∀ e ∈ (f.denote n).support, b ≼[order.monomialOrder n h] e →
      ¬ Cancellable (order.monomialOrder n h) (denotations n basis) (f.denote n) e) :
    ∃ f', (r.normalFormBelow (ofExponents b) f).result = .ok f' ∧ f'.nvars = n ∧
      IsNormalFormBelow (order.monomialOrder n h) (denotations n basis)
        ((order.monomialOrder n h).toSyn b) (f.denote n) (f'.denote n) := by
  generalize hb : (order.monomialOrder n h).toSyn b = x
  induction x using WellFoundedLT.induction generalizing b f with
  | ind x ih =>
    subst hb
    rcases cancelFirst?_range h hr hf (b := fun m => r.order.Below m (ofExponents b))
      (fun e he hb => habove e he ((below_eq_false_iff h hr).mp hb))
      with ⟨hnone, hirr⟩ | ⟨s, d, hsome, hs, hsn, hd, hbd, hcancels, hrest⟩
    · exact ⟨f, result_normalFormBelow_none rfl hnone, hf, hirr.isNormalFormBelow _⟩
    · have hlt := (below_eq_true_iff h hr).mp hbd
      obtain ⟨f', hf', hfn, hnf⟩ := ih _ hlt d s.outcome hsn hrest rfl
      refine ⟨f', ?_, hfn, hcancels.isNormalFormBelow hd hnf hlt⟩
      rw [result_normalFormBelow_some rfl hsome, hs]
      exact hf'

/-- Every polynomial in the variables of the basis has a normal form. -/
theorem normalForm_spec {f : Polynomial R} (hf : f.nvars = n) :
    ∃ f', (r.normalForm f).result = .ok f' ∧ f'.nvars = n ∧
      IsNormalForm (order.monomialOrder n h) (denotations n basis) (f.denote n)
        (f'.denote n) := by
  have hcheck := check_ok h hr hf
  rcases cancelFirst?_start h hr hf with
    ⟨hnone, hirr⟩ | ⟨s, d, hsome, hs, hsn, hd, hcancels, hrest⟩
  · exact ⟨f, result_normalForm_none hcheck rfl hnone, hf, hirr.isNormalForm⟩
  · obtain ⟨f', hf', hfn, hnf⟩ := normalFormBelow_spec h hr d s.outcome hsn hrest
    refine ⟨f', ?_, hfn, hcancels.isNormalForm hd hnf⟩
    rw [result_normalForm_some hcheck rfl hsome, hs]
    exact hf'

end Run

theorem reduce_ok [ExactCoefficient R] (hbasis : Proper n basis) {f : Polynomial R}
    (hf : f.nvars = n) :
    ∃ f', (reduce f basis order none).result = .ok f' ∧ f'.nvars = n ∧
      IsNormalForm (order.monomialOrder n h) (denotations n basis) (f.denote n)
        (f'.denote n) := by
  obtain ⟨reducer, hok, hr⟩ := ofBasis_ok h hbasis
  rw [reduce, hok]
  exact normalForm_spec h hr hf

section Standard

variable {f : Polynomial R} (hf : f.nvars = n)

omit [Coefficient R] in
include h in
private theorem leadingTerm_not_dvd (hbasis : Proper n basis) {F : Polynomial R} (hF : F.nvars = n)
    (hirr : Irreducible (order.monomialOrder n h) (denotations n basis) (F.denote n))
    {m : Monomial} {c : R} (hm : (m, c) ∈ F.terms) {g : Polynomial R} (hg : g ∈ basis) :
    ∃ lm lc, g.leadingTerm order = .ok (lm, lc) ∧
      ¬ (Monomial.divides lm m = true ∧ lc ∣ c) := by
  obtain ⟨e, rfl⟩ := exists_ofExponents ((length_of_mem_terms hm).trans hF)
  obtain ⟨hc, hc0⟩ := mem_terms.mp hm
  rw [← coeff_denote hF] at hc
  refine ⟨_, _, leadingTerm_ok h (hbasis.nvars_eq g hg) (hbasis.denote_ne_zero g hg), ?_⟩
  rw [divides_ofExponents, decide_eq_true_iff]
  rintro ⟨hle, hdvd⟩
  refine hirr e ?_ ⟨_, denote_mem_denotations hg, hle, hc ▸ hdvd⟩
  rw [MvPolynomial.mem_support_iff, hc]
  exact hc0

omit [Coefficient R] in
include hf in
private theorem exists_bounded_quotients {F : MvPolynomial (Fin n) R}
    (hnf : IsNormalForm (order.monomialOrder n h) (denotations n basis) (f.denote n) F) :
    ∃ q : Fin basis.length → MvPolynomial (Fin n) R,
      f.denote n = F + ∑ j, q j * (basis.get j).denote n ∧
      ∀ j, q j * (basis.get j).denote n ≠ 0 → ∃ lf, f.leadingMonomial order = .ok lf ∧
        ∀ e ∈ (q j * (basis.get j).denote n).support,
          order.compare (ofExponents e) lf ≠ .gt := by
  -- The monomials up to one that occurs: there are none if the polynomial is zero.
  have hlower : IsLowerSet {x | ∃ e ∈ (f.denote n).support,
      x ≤ (order.monomialOrder n h).toSyn e} := by
    rintro x y hyx ⟨e, he, hxe⟩
    exact ⟨e, he, hyx.trans hxe⟩
  have hsub := hnf.sub_mem _ hlower fun e he => ⟨e, he, le_rfl⟩
  rw [denotations_eq_range] at hsub
  obtain ⟨q, hsum, hq⟩ := exists_quotients hsub
  refine ⟨q, by rw [← hsum, add_sub_cancel], ?_⟩
  intro j hj
  have hbound (e : Fin n →₀ ℕ) (he : e ∈ (q j * (basis.get j).denote n).support) :
      ∃ e' ∈ (f.denote n).support, e ≼[order.monomialOrder n h] e' :=
    toSyn_mem_of_mem_boundedSpan hlower (hq j) (MvPolynomial.mem_support_iff.mp he)
  have hne : f.denote n ≠ 0 := by
    obtain ⟨e, he⟩ := MvPolynomial.support_nonempty.mpr hj
    obtain ⟨e', he', -⟩ := hbound e he
    exact MvPolynomial.support_nonempty.mp ⟨e', he'⟩
  refine ⟨_, leadingMonomial_ok h hf hne, ?_⟩
  intro e he
  obtain ⟨e', he', hle⟩ := hbound e he
  rw [ne_eq, Order.compare_ofExponents (h := h), not_lt]
  exact hle.trans ((order.monomialOrder n h).le_degree he')

/-- Over exact coefficients every polynomial has a normal form modulo a basis. -/
theorem reduce_standard [ExactCoefficient R] (h : order.accepts n = true)
    (hn : ∀ g ∈ basis, g.nvars = n) (hzero : ∀ g ∈ basis, g.isZero = false)
    (hf : f.nvars = n) :
    ∃ reducer f', ofBasis order none basis = .ok reducer ∧
      (reducer.normalForm f).result = .ok f' ∧ StandardReduction order n basis f f' := by
  have hbasis := Proper.of_isZero hn hzero
  obtain ⟨reducer, hok, hr⟩ := ofBasis_ok h hbasis
  obtain ⟨f', hresult, hfn, hnf⟩ := normalForm_spec h hr hf
  refine ⟨reducer, f', hok, hresult, hfn, fun m c hm g hg => ?_,
    exists_bounded_quotients h hf hnf⟩
  exact leadingTerm_not_dvd h hbasis hfn hnf.irreducible hm hg

theorem reduce_standard_integers :
    ∃ reducer f',
      ofBasis .lex none [.univariate (.ofCoefficients [1, 2] : Univariate ℤ)] = .ok reducer ∧
      (reducer.normalForm (.univariate (.ofCoefficients [0, 3, 4]))).result = .ok f' ∧
      StandardReduction .lex 1 [.univariate (.ofCoefficients [1, 2])]
        (.univariate (.ofCoefficients [0, 3, 4])) f' := by
  apply reduce_standard rfl
  · intro g hg
    rw [List.mem_singleton.mp hg]
    rfl
  · intro g hg
    rw [List.mem_singleton.mp hg]
    rfl
  · rfl

theorem not_reduce_misfit : ¬ ∀ (order : Order) (basis : List (Polynomial ℤ)) (f : Polynomial ℤ),
    (∀ g ∈ basis, g.nvars = 1) → (∀ g ∈ basis, g.isZero = false) → f.nvars = 1 →
      ∃ reducer f', ofBasis order none basis = .ok reducer ∧
        (reducer.normalForm f).result = .ok f' := by
  intro hall
  obtain ⟨reducer, f', hok, -⟩ := hall (.permuted ⟨[1, 0], by decide⟩)
    [.univariate (.ofCoefficients [0, 1])] (.univariate (.ofCoefficients [0, 1]))
    (fun g hg => by rw [List.mem_singleton.mp hg]; rfl)
    (fun g hg => by rw [List.mem_singleton.mp hg]; rfl) rfl
  cases hok

end Standard

end PolyIdeal.Reducer
