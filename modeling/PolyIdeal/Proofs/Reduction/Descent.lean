import PolyIdeal.Proofs.Order.Descending
import PolyIdeal.Proofs.Order.Induced
import PolyIdeal.Proofs.Reduction.Loop
import PolyIdeal.Proofs.Reduction.Misfit

/-!
# Descent of elementary reductions

An elementary reduction takes a monomial away and changes nothing above it. The outcome lies below
the polynomial in the induced order, or is a beginning of it, with which that order does not
compare it; in either case reductions cannot follow one another forever.
-/

namespace PolyIdeal

open Monomial MonomialOrder

variable {R : Type} [CommRing R] [DecidableEq R] [Coefficient R]

/-- How the outcome `f'` of an elementary reduction lies below the polynomial `f`. -/
structure Order.Decreases (order : Order) (f f' : Polynomial R) : Prop where
  /-- A monomial disappears, and no coefficient above it changes. -/
  cancels : ∃ ν ∈ f.monomials, ν ∉ f'.monomials ∧
    ∀ m, order.compare m ν = .gt → f'.coefficient m = f.coefficient m
  /-- The two are not compared exactly if the outcome is a beginning of the polynomial. -/
  fails_iff : order.comparePolynomials f' f = .error (.incomparable f'.text f.text
      ((order.descending f'.monomials).map toInts) ((order.descending f.monomials).map toInts)) ↔
    f'.isZero = false ∧
      ProperPrefix (order.descending f'.monomials) (order.descending f.monomials)
  /-- Where they are compared, the outcome is the smaller one. -/
  lt : ¬ (f'.isZero = false ∧
      ProperPrefix (order.descending f'.monomials) (order.descending f.monomials)) →
    order.comparePolynomials f' f = .ok .lt

namespace Reducer

open PolyIdeal.Polynomial

section Arity

variable {n : ℕ} {ns : List ℕ}

private theorem mem_distinctArities {k : ℕ} (hk : k ∈ ns) : k ∈ distinctArities ns := by
  have go (l : List ℕ) (hkl : k ∈ l) :
      k ∈ l.foldr (fun n rest => if rest.head? = some n then rest else n :: rest) [] := by
    induction l with
    | nil => cases hkl
    | cons a l ih =>
      rw [List.foldr_cons]
      split
      · rename_i hhead
        rcases List.mem_cons.mp hkl with rfl | hkl
        · exact List.mem_of_mem_head? hhead
        · exact ih hkl
      · rcases List.mem_cons.mp hkl with rfl | hkl
        · exact List.mem_cons_self
        · exact List.mem_cons_of_mem a (ih hkl)
  exact go _ (List.mem_mergeSort.mpr hk)

private theorem eq_some_of_commonArity {nvars : Option ℕ} (h : commonArity ns = .ok nvars) :
    ∀ k ∈ ns, nvars = some k := by
  intro k hk
  have hmem := mem_distinctArities hk
  rw [commonArity] at h
  split at h
  · rename_i heq
    rw [heq] at hmem
    cases hmem
  · rename_i n heq
    rw [heq] at hmem
    obtain rfl := List.mem_singleton.mp hmem
    exact (Except.ok.inj h).symm
  · cases h

end Arity

variable {order : Order} {basis : List (Polynomial R)} {r : Reducer R} {f f' : Polynomial R}

omit [Coefficient R] in
private theorem isZero_of_divisor {g : Polynomial R} {d : Divisor R}
    (hd : divisor order g = .ok d) : g.isZero = false := by
  rw [divisor] at hd
  split at hd
  · cases hd
  · rename_i hzero
    exact Bool.eq_false_iff.mpr hzero

private theorem cancelFirst?_of_no_divisors (hr : r.divisors = []) (f : Polynomial R)
    (ms : List Monomial) : r.cancelFirst? f ms = .ok none := by
  induction ms with
  | nil => rfl
  | cons m ms ih =>
    rw [cancelFirst?, hr, ih]
    rfl

private theorem over_of_step? (hok : ofBasis order none basis = .ok r)
    (hstep : (r.step? f).result = .ok (some f')) :
    ∃ h : order.accepts f.nvars = true, r.Over h basis := by
  obtain ⟨divisors, hdivisors, hrest⟩ := exists_of_bind_ok hok
  obtain ⟨nvars, hnvars, hr⟩ := exists_of_bind_ok hrest
  obtain rfl := Except.ok.inj hr
  rw [List.mapM_map] at hdivisors
  have hdivisor := exists_of_mapM_ok hdivisors
  have harity := eq_some_of_commonArity hnvars
  rw [List.map_map] at harity
  cases hcheck : Reducer.check ⟨order, none, nvars, divisors⟩ f with
  | error e =>
    rw [step?, hcheck] at hstep
    cases hstep
  | ok u =>
    cases basis with
    | nil =>
      obtain rfl : divisors = [] := (Except.ok.inj hdivisors).symm
      rw [result_step? hcheck, cancelFirst?_of_no_divisors rfl] at hstep
      cases hstep
    | cons g rest =>
      have hg : nvars = some g.nvars := harity _ (List.mem_map_of_mem List.mem_cons_self)
      have hfg : f.nvars = g.nvars := by
        by_contra hne
        simp only [Reducer.check, hg] at hcheck
        rw [if_pos hne] at hcheck
        cases hcheck
      obtain ⟨d, hd⟩ := hdivisor g List.mem_cons_self
      have haccepts : order.accepts f.nvars = true := hfg ▸ accepts_of_divisor hd
      have hproper : Proper f.nvars (g :: rest) := by
        refine Proper.of_isZero (fun g' hg' => ?_) fun g' hg' => ?_
        · have hg'n := harity _ (List.mem_map_of_mem hg')
          exact (Option.some.inj (hg'n.symm.trans hg)).trans hfg.symm
        · obtain ⟨d', hd'⟩ := hdivisor g' hg'
          exact isZero_of_divisor hd'
      obtain ⟨r', hok', hr'⟩ := ofBasis_ok haccepts hproper
      obtain rfl := Except.ok.inj (hok.symm.trans hok')
      exact ⟨haccepts, hr'⟩

section Over

variable [ExactCoefficient R] {n : ℕ} (h : order.accepts n = true) (hr : r.Over h basis)
  (hf : f.nvars = n) (hstep : (r.step? f).result = .ok (some f'))

include hr hf hstep

private theorem exists_cancelled_of_step? : ∃ d ∈ (f.denote n).support, (f'.denote n).coeff d = 0 ∧
    ∀ e, d ≺[order.monomialOrder n h] e → (f'.denote n).coeff e = (f.denote n).coeff e := by
  rw [result_step? (check_ok h hr hf)] at hstep
  rcases cancelFirst?_start h hr hf with ⟨hnone, -⟩ | ⟨s, d, hsome, -, -, hd, hcancels, -⟩
  · rw [hnone] at hstep
    cases hstep
  · rw [hsome] at hstep
    cases hstep
    exact ⟨d, hd, hcancels.coeff_self, fun e he => hcancels.coeff_of_lt he⟩

theorem descendsTo_of_step? : DescendsTo (ShortLex (· < ·)) (order.ranks f') (order.ranks f) := by
  obtain ⟨d, hd, hd', habove⟩ := exists_cancelled_of_step? h hr hf hstep
  exact descendsTo_of_lower h hf (nvars_of_step? h hr hf hstep) hd hd' habove

private theorem ranks_lt_of_step? : order.ranks f' < order.ranks f := by
  obtain ⟨d, hd, hd', habove⟩ := exists_cancelled_of_step? h hr hf hstep
  exact lex_of_lower_support h hf (nvars_of_step? h hr hf hstep) hd hd' habove

private theorem decreases_of_over : order.Decreases f f' := by
  have hf' : f'.nvars = n := nvars_of_step? h hr hf hstep
  obtain ⟨d, hd, hd', habove⟩ := exists_cancelled_of_step? h hr hf hstep
  have hmem : ofExponents d ∈ f.monomials := (mem_monomials_iff hf).mpr hd
  have hlt := ranks_lt_of_step? h hr hf hstep
  have hne : f.isZero = false := by
    rw [← Bool.not_eq_true, ← monomials_eq_nil_iff]
    exact List.ne_nil_of_mem hmem
  -- The polynomial cannot be a beginning of what is below it.
  have hruns : RunsOut (order.descending f'.monomials) (order.descending f.monomials) ↔
      f'.isZero = false ∧
        ProperPrefix (order.descending f'.monomials) (order.descending f.monomials) := by
    rw [Order.runsOut_descending_iff]
    refine ⟨fun ⟨hzero, _, hbegins⟩ => ⟨hzero, hbegins.resolve_right fun hback => ?_⟩,
      fun ⟨hzero, hbegins⟩ => ⟨hzero, hne, .inl hbegins⟩⟩
    have hranks := hback.1.map order.rank
    exact absurd hlt (not_lt.mpr (le_of_isPrefix hranks))
  refine ⟨⟨ofExponents d, hmem, ?_, fun m hm => ?_⟩, ?_, fun hno => ?_⟩
  · rw [mem_monomials_iff hf', MvPolynomial.mem_support_iff, not_not]
    exact hd'
  · by_cases hlen : m.length = n
    · obtain ⟨e, rfl⟩ := exists_ofExponents hlen
      rw [← coeff_denote hf', ← coeff_denote hf]
      exact habove e ((Order.compare_ofExponents (h := h)).mp hm)
    · rw [coefficient_of_length_ne (hf'.symm ▸ hlen), coefficient_of_length_ne (hf.symm ▸ hlen)]
  · rw [← hruns]
    exact Order.comparePolynomials_eq_error_iff h hf' hf
  · exact (Order.comparePolynomials_eq_ok_iff h hf' hf).mpr ⟨hruns.not.mpr hno, hlt⟩

end Over

/-- Every step decreases the polynomial, and no steps follow one another forever. -/
theorem step?_decreases [ExactCoefficient R] (hok : ofBasis order none basis = .ok r) :
    (∀ f f' : Polynomial R, (r.step? f).result = .ok (some f') → order.Decreases f f') ∧
      ∀ s : ℕ → Polynomial R, ¬ ∀ i, (r.step? (s i)).result = .ok (some (s (i + 1))) := by
  refine ⟨fun f f' hstep => ?_, fun s hs => ?_⟩
  · obtain ⟨h, hr⟩ := over_of_step? hok hstep
    exact decreases_of_over h hr rfl hstep
  · obtain ⟨h, hr⟩ := over_of_step? hok (hs 0)
    have hn (i : ℕ) : (s i).nvars = (s 0).nvars := by
      induction i with
      | zero => rfl
      | succ i ih => exact nvars_of_step? h hr ih (hs i)
    have : IsWellFounded (List (List ℕ)) (DescendsTo (ShortLex (· < ·))) :=
      ⟨descendsTo_wf (shortLex_wf Nat.lt_wfRel.wf)⟩
    obtain ⟨i, hi⟩ := WellFounded.not_rel_apply_succ (r := DescendsTo (ShortLex (· < ·)))
      fun i => order.ranks (s i)
    exact hi (descendsTo_of_step? h hr (hn i) (hs i))

/-- The step from `4 * X^2 + 3 * X` to `X` modulo `2 * X + 1` over the integers. -/
theorem step?_decreases_integers :
    ∃ r, ofBasis .lex none [.univariate (.ofCoefficients [1, 2] : Univariate ℤ)] = .ok r ∧
      (r.step? (.univariate (.ofCoefficients [0, 3, 4]))).result =
        .ok (some (.univariate (.ofCoefficients [0, 1]))) ∧
      Order.lex.Decreases (.univariate (.ofCoefficients [0, 3, 4]) : Polynomial ℤ)
        (.univariate (.ofCoefficients [0, 1])) ∧
      ∀ s : ℕ → Polynomial ℤ, ¬ ∀ i, (r.step? (s i)).result = .ok (some (s (i + 1))) := by
  have hok : ofBasis .lex none [.univariate (.ofCoefficients [1, 2] : Univariate ℤ)] =
      .ok ⟨.lex, none, some 1, [.polynomial (.univariate (.ofCoefficients [1, 2])) [1] 2]⟩ := by
    cbv
  have hdescending : Order.lex.descending
      (Polynomial.univariate (.ofCoefficients [0, 3, 4] : Univariate ℤ)).monomials =
        [[2], [1]] :=
    Order.descending_unique (n := 1) rfl (.swap [1] [2] []) (by decide) (by decide)
  have hstep : (Reducer.step? ⟨.lex, none, some 1,
      [.polynomial (.univariate (.ofCoefficients [1, 2] : Univariate ℤ)) [1] 2]⟩
      (.univariate (.ofCoefficients [0, 3, 4]))).result =
        .ok (some (.univariate (.ofCoefficients [0, 1]))) := by
    rw [result_step? rfl, hdescending]
    rfl
  obtain ⟨hdecreases, hfinite⟩ := step?_decreases hok
  exact ⟨_, hok, hstep, hdecreases _ _ hstep, hfinite⟩

end Reducer

end PolyIdeal
