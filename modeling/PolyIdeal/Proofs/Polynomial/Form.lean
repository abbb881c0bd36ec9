import PolyIdeal.Proofs.Polynomial.Evaluation
import PolyIdeal.Proofs.Polynomial.Leading

/-!
# The form of results

Whatever is done with a polynomial, the result is kept in the way of the left operand. So two
results that are reached from the same polynomial are the same as soon as they stand for the same.
-/

namespace PolyIdeal.Polynomial

variable {R : Type} [CommRing R] [DecidableEq R] {n : ℕ} {p q r : Polynomial R}

omit [DecidableEq R] in
theorem eq_of_coefficient (hkind : p.isUnivariate = q.isUnivariate) (hn : p.nvars = q.nvars)
    (h : ∀ m, p.coefficient m = q.coefficient m) : p = q := by
  cases p with
  | univariate p =>
    cases q with
    | univariate q => exact congrArg univariate (Univariate.ext_coefficient fun i => h [i])
    | multinomial q => cases hkind
  | multinomial p =>
    cases q with
    | univariate q => cases hkind
    | multinomial q => exact congrArg multinomial (Multinomial.ext_coefficient hn h)

theorem eq_of_denote (hkind : p.isUnivariate = q.isUnivariate) (hp : p.nvars = n)
    (hq : q.nvars = n) (h : p.denote n = q.denote n) : p = q := by
  have hagrees := (agrees_iff hp hq).mpr h
  simp only [agrees, Bool.and_eq_true, beq_iff_eq] at hagrees
  exact eq_of_coefficient hkind hagrees.1 (terms_eq_iff.mp hagrees.2)

theorem isUnivariate_of_combine {f : Univariate R → Univariate R → Univariate R}
    {g : Multinomial R → Multinomial R → Multinomial R} (h : combine f g p q = .ok r) :
    r.isUnivariate = p.isUnivariate := by
  unfold combine at h
  split at h
  · cases p <;> cases q <;> (rw [← Except.ok.inj h]; rfl)
  · cases h

theorem isUnivariate_neg (p : Polynomial R) : (-p).isUnivariate = p.isUnivariate := by
  cases p <;> rfl

theorem isUnivariate_of_mulTerm {u : Monomial} {c : R} (h : p.mulTerm u c = .ok r) :
    r.isUnivariate = p.isUnivariate := by
  cases p with
  | univariate p =>
    match u, h with
    | [k], h =>
      rw [← Except.ok.inj h]
      rfl
  | multinomial p =>
    rw [mulTerm] at h
    split at h
    · rw [← Except.ok.inj h]
      rfl
    · cases h

theorem isUnivariate_of_monic [Coefficient R] {order : Order} (h : p.monic order = .ok r) :
    r.isUnivariate = p.isUnivariate := by
  cases p with
  | univariate p =>
    rw [monic] at h
    cases hmonic : p.monic with
    | error e =>
      rw [hmonic] at h
      cases h
    | ok q =>
      rw [hmonic] at h
      rw [← Except.ok.inj h]
      rfl
  | multinomial p =>
    rw [monic] at h
    split at h
    · rw [← Except.ok.inj h]
    · obtain ⟨lc, -, h⟩ := exists_of_bind_ok h
      obtain ⟨c, -, h⟩ := exists_of_bind_ok h
      rw [← Except.ok.inj h]
      rfl

end PolyIdeal.Polynomial
