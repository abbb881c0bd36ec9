import Mathlib.Data.Int.Notation
import Mathlib.Data.Nat.Notation
import PolyIdeal.Polynomial.Conversion
import PolyIdeal.Proofs.Traced

/-!
# Polynomials from terms

Where the exponents of all terms fit, the coefficients are all that can be refused.
-/

namespace PolyIdeal

theorem Polynomial.checkMonomial_ok {R : Type} [Zero R] {p : Polynomial R} {m : Monomial}
    (hm : m.length = p.nvars) : p.checkMonomial m = .ok () := by
  cases p with
  | univariate p => exact if_pos hm
  | multinomial p =>
    have hlen : m.toInts.length = (Monomial.unit p.nvars).toInts.length := by
      rw [Monomial.length_toInts, Monomial.length_toInts, Monomial.unit, List.length_replicate, hm]
      rfl
    exact if_pos hlen

variable {R : Type} [Zero R] [DecidableEq R] [Add R] [Coefficient R] {terms : List RawTerm}
  (hints : ∀ t ∈ terms, Monomial.ofInts? t.1 = .ok (t.1.map Int.toNat))
include hints

namespace Univariate

theorem fromTerms_eq (hlength : ∀ t ∈ terms, t.1.length = 1) :
    fromTerms (R := R) terms 1 =
      (terms.mapM fun t => Coefficient.ofOperand? t.2).map fun cs =>
        ofTerms ((terms.map fun t => (t.1.map Int.toNat).getD 0 0).zip cs) := by
  have hany : (terms.map fun t => t.1.map Int.toNat).any (fun m => m.length ≠ 1) = false := by
    simp only [List.any_map, List.any_eq_false]
    intro t ht
    simp [hlength t ht]
  rw [fromTerms]
  simp only [ne_eq, not_true_eq_false, if_false, mapM_ok hints, bind, Except.bind, pure,
    Except.pure, hany, Bool.false_eq_true, List.map_map]
  cases terms.mapM (fun t => Coefficient.ofOperand? (R := R) t.2) <;> rfl

end Univariate

namespace Multinomial

theorem fromTerms_eq {n : ℕ} (hn : 0 < n) (hlength : ∀ t ∈ terms, t.1.length = n) :
    fromTerms (R := R) terms n =
      (convertAll (terms.map Prod.snd)
          (.invalid (.foreignCoefficients (Coefficient.domain R).text))).map fun cs =>
        ofTerms n hn ((terms.map fun t => t.1.map Int.toNat).zip cs) := by
  have hcheck : (terms.map fun t => t.1.map Int.toNat).forM (fun m : Monomial =>
      if (m.length : ℤ) = n then (.ok () : Except Failure Unit)
      else .error (.invalid (.monomialArity m.toInts n))) = .ok () := by
    refine forM_ok fun m hm => ?_
    obtain ⟨t, ht, rfl⟩ := List.mem_map.mp hm
    rw [List.length_map, hlength t ht, if_pos rfl]
  rw [fromTerms]
  simp only [mapM_ok hints, bind, Except.bind, hcheck, Int.toNat_natCast, hn]
  cases convertAll (R := R) (terms.map Prod.snd)
    (.invalid (.foreignCoefficients (Coefficient.domain R).text)) <;> rfl

end Multinomial

end PolyIdeal
