import PolyIdeal.Proofs.Basis.Autoreduction
import PolyIdeal.Proofs.Reduction.Loop
import PolyIdeal.Proofs.Reduction.Misfit

/-!
# Autoreduction of any list

Autoreduction needs no Groebner basis. Whatever list of nonzero polynomials it starts from, its loop
comes to an end with generators of the same ideal, no more of them, that a step modulo the others
leaves alone. Only an order of other variables stops it.
-/

namespace PolyIdeal

open Monomial MonomialOrder PolyIdeal.Polynomial Reducer Settlement

variable {R : Type} [CommRing R] [DecidableEq R] [Coefficient R] {n : ℕ} {order : Order}
  {basis : List (Polynomial R)}

/-- What the autoreduction of a list is for. -/
structure Interreduces (order : Order) (n : ℕ) (basis settled : List (Polynomial R)) : Prop where
  nvars_eq : ∀ g ∈ settled, g.nvars = n
  isZero_eq : ∀ g ∈ settled, g.isZero = false
  span_eq : Ideal.span (denotations n settled) = Ideal.span (denotations n basis)
  length_le : settled.length ≤ basis.length
  /-- A step modulo the others changes no element. -/
  step_eq : ∀ before g after, settled = before ++ g :: after →
    ∃ r, ofBasis order none (before ++ after) = .ok r ∧ (r.step? g).result = .ok none

/-- Any list of nonzero polynomials is autoreduced, and its loop of changes comes to an end. -/
theorem autoreduce_interreduces [ExactCoefficient R] (h : order.accepts n = true)
    (hn : ∀ g ∈ basis, g.nvars = n) (hzero : ∀ g ∈ basis, g.isZero = false) :
    ∃ settled, (autoreduce basis order none).result = .ok settled ∧
      Loop (Settlement.next (reduceByOthers order none)) (basis.map (element order))
        (.ok (settled.map (element order))) ∧
      Interreduces order n basis settled := by
  have hbasis := Proper.of_isZero hn hzero
  obtain ⟨settled, hloop, hresult, hproper, hspan, -, hauto⟩ :=
    autoreduce_spec h keptByReduction_true hbasis trivial
  refine ⟨settled, hresult, hloop, hproper.nvars_eq, ?_, hspan, length_autoreduce_le hresult, ?_⟩
  · intro g hg
    exact (isZero_eq_false_iff (hproper.nvars_eq g hg)).mpr (hproper.denote_ne_zero g hg)
  · intro before g after hsplit
    have hirr := hauto before g after hsplit
    rw [hsplit] at hproper
    obtain ⟨r, hok, hr⟩ := ofBasis_ok h hproper.others
    have hg : g.nvars = n := hproper.nvars_eq g (by simp)
    exact ⟨r, hok, (result_step?_none_iff h hr hg).mpr hirr⟩

/-- The polynomials `2 * X` and `4 * X + 1` over the integers. The second is replaced by one, and
then the first is dropped. -/
theorem autoreduce_interreduces_lines :
    ∃ settled, (autoreduce [.univariate (.ofCoefficients [0, 2] : Univariate ℤ),
        .univariate (.ofCoefficients [1, 4])] .lex none).result = .ok settled ∧
      Loop (Settlement.next (reduceByOthers .lex none))
        ([.univariate (.ofCoefficients [0, 2] : Univariate ℤ),
          .univariate (.ofCoefficients [1, 4])].map (element .lex))
        (.ok (settled.map (element .lex))) ∧
      Interreduces .lex 1 [.univariate (.ofCoefficients [0, 2] : Univariate ℤ),
        .univariate (.ofCoefficients [1, 4])] settled := by
  apply autoreduce_interreduces rfl
  · intro g hg
    rcases List.mem_pair.mp hg with rfl | rfl <;> rfl
  · intro g hg
    rcases List.mem_pair.mp hg with rfl | rfl <;> rfl

section Misfit

variable {tolerance : Option Tolerance}

private theorem reduce_of_reduceByOthers (others : List (Polynomial R)) (g : Polynomial R)
    {c : Change (Element R)}
    (hc : (reduceByOthers order tolerance (others.map (element order)) (element order g)).result =
      .ok c) : ∃ r, (reduce g others order tolerance).result = .ok r := by
  obtain ⟨reducer, hreducer, hrest⟩ := Traced.exists_of_result_bind hc
  obtain ⟨r, hr, -⟩ := Traced.exists_of_result_bind hrest
  have hok : ofBasis order tolerance others = .ok reducer := hreducer
  refine ⟨r, ?_⟩
  rw [reduce, hok]
  exact hr

theorem autoreduce_misfit (hmisfit : ¬ order.accepts n = true) (hn : ∀ g ∈ basis, g.nvars = n)
    (hzero : ∀ g ∈ basis, g.isZero = false) {settled : List (Polynomial R)}
    (hresult : (autoreduce basis order none).result = .ok settled) : basis = [] := by
  cases basis with
  | nil => rfl
  | cons g rest =>
    exfalso
    rw [autoreduce] at hresult
    obtain ⟨_, hsettle, -⟩ := Traced.exists_of_result_bind hresult
    -- The first element is the first that is reduced.
    cases hchange : (change? (reduceByOthers order none) []
        ((g :: rest).map (element order))).result with
    | error e =>
      rw [result_settle_error hchange] at hsettle
      cases hsettle
    | ok found =>
      rw [List.map_cons, Settlement.change?] at hchange
      obtain ⟨c, hc, -⟩ := Traced.exists_of_result_bind hchange
      obtain ⟨r, hr⟩ := reduce_of_reduceByOthers rest g hc
      have hrest : ∀ p ∈ rest, p.nvars = n := fun p hp => hn p (List.mem_cons_of_mem g hp)
      have hg := (isZero_of_reduce_misfit hmisfit hrest (hn g List.mem_cons_self) hr).2
      rw [hzero g List.mem_cons_self] at hg
      cases hg

theorem not_autoreduce_misfit : ¬ ∀ (order : Order) (basis : List (Polynomial ℤ)),
    (∀ g ∈ basis, g.nvars = 1) → (∀ g ∈ basis, g.isZero = false) →
      ∃ settled, (autoreduce basis order none).result = .ok settled := by
  intro hall
  have hn : ∀ g ∈ [Polynomial.univariate (.ofCoefficients [0, 1] : Univariate ℤ)], g.nvars = 1 :=
    fun g hg => by rw [List.mem_singleton.mp hg]; rfl
  have hzero : ∀ g ∈ [Polynomial.univariate (.ofCoefficients [0, 1] : Univariate ℤ)],
      g.isZero = false :=
    fun g hg => by rw [List.mem_singleton.mp hg]; rfl
  obtain ⟨settled, hsettled⟩ := hall (.permuted ⟨[1, 0], by decide⟩) _ hn hzero
  have hnil := autoreduce_misfit (by decide) hn hzero hsettled
  cases hnil

end Misfit

end PolyIdeal
