import PolyIdeal.Proofs.Order.Comparison
import PolyIdeal.Proofs.Reduction.NormalForm

/-!
# Orders of other variables

An order that arranges another number of variables ranks none of the monomials. What has monomials
to be ranked is refused, and only zero modulo no polynomials has none.
-/

namespace PolyIdeal.Reducer

open Monomial PolyIdeal.Polynomial

variable {R : Type} [CommRing R] [DecidableEq R] {n : ℕ} {order : Order} {f g : Polynomial R}

theorem accepts_of_divisor {d : Divisor R} (hd : divisor order g = .ok d) :
    order.accepts g.nvars = true := by
  rw [divisor] at hd
  split at hd
  · cases hd
  · cases hlead : g.leadingTerm order with
    | error e =>
      rw [hlead] at hd
      cases hd
    | ok t => exact accepts_of_leadingTerm hlead

private def modNothing (R : Type) [Zero R] (order : Order) : Reducer R :=
  { order, tolerance := none, nvars := none, divisors := [] }

omit [DecidableEq R] in
private theorem ofElements_nil : ofElements order none [] = .ok (modNothing R order) := by
  simp only [ofElements, commonArity, distinctArities, List.map_nil, List.mapM_nil,
    List.mergeSort_nil]
  rfl

section Misfit

variable (hmisfit : ¬ order.accepts n = true)
include hmisfit

private theorem ofElements_misfit (hg : g.nvars = n) (rest : List (Element R)) :
    ∃ e, ofElements order none (element order g :: rest) = .error e := by
  cases hok : ofElements order none (element order g :: rest) with
  | error e => exact ⟨e, rfl⟩
  | ok r =>
    obtain ⟨_, hdivisors, -⟩ := exists_of_bind_ok hok
    rw [List.mapM_cons] at hdivisors
    obtain ⟨d, hd, -⟩ := exists_of_bind_ok hdivisors
    rw [← hg] at hmisfit
    exact absurd (accepts_of_divisor hd) hmisfit

private theorem check_misfit (hf : f.nvars = n) (hzero : f.isZero = false) :
    ∃ e, (modNothing R order).check f = .error e := by
  have hne : f.monomials ≠ [] := by
    rw [ne_eq, monomials_eq_nil_iff, hzero]
    simp
  obtain ⟨m, ms, hms⟩ := List.exists_cons_of_ne_nil hne
  have hlength := length_of_mem_monomials (hms ▸ List.mem_cons_self : m ∈ f.monomials)
  cases hm : order.check m.toInts with
  | ok u =>
    rw [← hf, ← hlength] at hmisfit
    exact absurd (Order.accepts_of_check hm) hmisfit
  | error e =>
    refine ⟨e, ?_⟩
    change (f.monomials.forM fun m => order.check m.toInts) = _
    rw [hms]
    exact forM_error (l := []) (by simp) hm

variable [Coefficient R]

theorem isZero_of_reduce_misfit {f' : Polynomial R} {basis : List (Polynomial R)}
    (hn : ∀ g ∈ basis, g.nvars = n) (hf : f.nvars = n)
    (hresult : (reduce f basis order none).result = .ok f') : basis = [] ∧ f.isZero = true := by
  rw [reduce] at hresult
  cases basis with
  | cons g rest =>
    obtain ⟨e, he⟩ := ofElements_misfit hmisfit (hn g List.mem_cons_self)
      (rest.map (element order))
    rw [ofBasis, List.map_cons, he] at hresult
    cases hresult
  | nil =>
    refine ⟨rfl, ?_⟩
    rw [ofBasis, List.map_nil, ofElements_nil] at hresult
    by_contra hzero
    obtain ⟨e, he⟩ := check_misfit hmisfit hf (Bool.eq_false_iff.mpr hzero)
    cases hresult.symm.trans (result_normalForm_refused he)

end Misfit

theorem reduce_nil_of_isZero [Coefficient R] (hzero : f.isZero = true) :
    (reduce f [] order none).result = .ok f := by
  have hms : f.monomials = [] := monomials_eq_nil_iff.mpr hzero
  have hcheck : (modNothing R order).check f = .ok () := by
    change (f.monomials.forM fun m => order.check m.toInts) = _
    rw [hms]
    rfl
  rw [reduce, ofBasis, List.map_nil, ofElements_nil]
  refine result_normalForm_none hcheck rfl ?_
  rw [hms, Order.descending, List.mergeSort_nil]
  rfl

end PolyIdeal.Reducer
