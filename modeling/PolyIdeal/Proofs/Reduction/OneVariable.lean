import PolyIdeal.Proofs.Ideal.StrongBasis
import PolyIdeal.Proofs.Reduction.NormalForm
import PolyIdeal.Proofs.Univariate.Division

/-!
# Reduction in one variable

Over a field the remainder of the division by a polynomial is smaller than the divisor, so that no
power is left that the divisor could cancel. Modulo a single polynomial there is one normal form
only, and thus it is the remainder that a reduction comes to, whatever the order is.
-/

namespace PolyIdeal

open MonomialOrder PolyIdeal.Polynomial Reducer

variable {R : Type} [CommRing R] [DecidableEq R]

private theorem irreducible_of_size_lt (m : MonomialOrder (Fin 1)) {p g : Univariate R}
    (hg : g.isZero = false) (hsize : p.size < g.size) :
    Irreducible m {(univariate g).denote 1} ((univariate p).denote 1) := by
  obtain ⟨c, hc, -⟩ := Univariate.exists_leadingCoefficient hg
  intro e he hcancel
  obtain ⟨hle, -⟩ := cancellable_singleton.mp hcancel
  have hdegree : g.size - 1 ≤ e 0 := by
    have hle0 := hle 0
    rwa [degree_univariate m hc, Finsupp.single_eq_same] at hle0
  rw [denote_univariate] at he
  have hlt := Univariate.lt_size_of_mem_support he
  omega

variable [Coefficient R] [FieldCoefficient R]

/-- Modulo a single polynomial in one variable the normal form is the remainder of the division. -/
theorem reduce_eq_modulo {order : Order} (h : order.accepts 1 = true) (f : Univariate R)
    {g : Univariate R} (hg : g.isZero = false) :
    ∃ r r', (reduce (.univariate f) [.univariate g] order none).result = .ok r ∧
      f.modulo g = .ok r' ∧ r.agrees (.univariate r') = true := by
  obtain ⟨q, r', hdivide, hsize, hsum⟩ := Univariate.divMod_ok f hg
  have hG : (univariate g).denote 1 ≠ 0 := (isZero_eq_false_iff (p := univariate g) rfl).mp hg
  have hbasis : Proper 1 [univariate g] := .singleton rfl hG
  obtain ⟨r, hresult, hrn, hnf⟩ := reduce_ok h hbasis (f := univariate f) rfl
  have hmodulo : f.modulo g = .ok r' := by
    rw [Univariate.modulo, hdivide]
    rfl
  refine ⟨r, r', hresult, hmodulo, (agrees_iff hrn rfl).mpr ?_⟩
  -- The remainder is its own normal form, and it differs from the dividend by a multiple.
  have hnf' := (irreducible_of_size_lt (order.monomialOrder 1 h) hg hsize).isNormalForm
  have hgroebner := (isStrongGroebner_singleton (m := order.monomialOrder 1 h)
    ((univariate g).denote 1)).isGroebner
  have hunit := hbasis.isUnit_leadingCoeff (order.monomialOrder 1 h)
  rw [denotations_singleton] at hnf hunit
  apply (hnf.eq_iff_sub_mem hnf' rfl hgroebner hgroebner hunit hunit).mpr
  rw [Ideal.mem_span_singleton', denote_univariate, denote_univariate, denote_univariate, hsum]
  exact ⟨Univariate.horner q.coefficients, (add_sub_cancel_right _ _).symm⟩

theorem reduce_eq_modulo_rationals :
    ∃ r r', (reduce (.univariate (.ofCoefficients [(-1 : ℚ), 0, 0, 1]))
        [.univariate (.ofCoefficients [2, 0, 2])] .degRevlex none).result = .ok r ∧
      (Univariate.ofCoefficients [(-1 : ℚ), 0, 0, 1]).modulo (.ofCoefficients [2, 0, 2]) =
        .ok r' ∧ r.agrees (.univariate r') = true :=
  reduce_eq_modulo rfl _ rfl

end PolyIdeal
