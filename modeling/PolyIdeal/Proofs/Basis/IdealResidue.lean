import PolyIdeal.Proofs.Basis.Coset
import PolyIdeal.Value.IdealResidue

/-!
# Residues modulo an ideal

Modulo a Groebner basis a residue stands for a coset: its polynomial is irreducible and differs from
the members of the coset by members of the ideal. Sums, differences, products and opposites of
residues stand for those of the cosets, and residues are the same if their cosets are.
-/

namespace PolyIdeal

open Monomial MonomialOrder PolyIdeal.Polynomial

variable {R : Type} [CommRing R] [DecidableEq R] {n : ℕ}

namespace Operator

omit [DecidableEq R] in
theorem apply_sub_mem (op : Operator) {I : Ideal (MvPolynomial (Fin n) R)}
    {F F' G G' : MvPolynomial (Fin n) R} (hF : F - F' ∈ I) (hG : G - G' ∈ I) :
    op.apply F G - op.apply F' G' ∈ I := by
  cases op with
  | add =>
    have heq : F + G - (F' + G') = F - F' + (G - G') := by ring
    show F + G - (F' + G') ∈ I
    rw [heq]
    exact Ideal.add_mem _ hF hG
  | sub =>
    have heq : F - G - (F' - G') = F - F' - (G - G') := by ring
    show F - G - (F' - G') ∈ I
    rw [heq]
    exact Ideal.sub_mem _ hF hG
  | mul =>
    have heq : F * G - F' * G' = G * (F - F') + F' * (G - G') := by ring
    show F * G - F' * G' ∈ I
    rw [heq]
    exact Ideal.add_mem _ (Ideal.mul_mem_left _ _ hF) (Ideal.mul_mem_left _ _ hG)

theorem onPolynomials_ok (op : Operator) {p q : Polynomial R} (hp : p.nvars = n)
    (hq : q.nvars = n) :
    ∃ r, op.onPolynomials p q = .ok r ∧ r.nvars = n ∧
      r.denote n = op.apply (p.denote n) (q.denote n) := by
  cases op with
  | add => exact add_ok hp hq
  | sub => exact sub_ok hp hq
  | mul => exact mul_ok hp hq

end Operator

private theorem sameBasis_refl (basis : List (Polynomial R)) : sameBasis basis basis = true := by
  induction basis with
  | nil => rfl
  | cons g basis ih => simpa [sameBasis, agrees] using ih

@[simp] theorem orderChoice_same_refl (order : Order) :
    (OrderChoice.given order).same (.given order) = true := by
  simp [OrderChoice.same, Order.same]

variable {order : Order} (h : order.accepts n = true)

/-- A residue modulo a basis of an ideal that stands for the coset of `F`. -/
structure Represents (I : Ideal (MvPolynomial (Fin n) R)) (basis : List (Polynomial R))
    (c : IdealResidue R) (F : MvPolynomial (Fin n) R) : Prop where
  basis_eq : c.basis = basis
  order_eq : c.order = .given order
  tolerance_eq : c.tolerance = none
  nvars_eq : c.polynomial.nvars = n
  irreducible : Irreducible (order.monomialOrder n h) (denotations n basis)
    (c.polynomial.denote n)
  sub_mem : F - c.polynomial.denote n ∈ I

namespace Represents

variable {h} {I : Ideal (MvPolynomial (Fin n) R)} {basis : List (Polynomial R)}
  {c d : IdealResidue R} {F G : MvPolynomial (Fin n) R}

theorem of_sub_mem (hc : Represents h I basis c F) (hFG : G - F ∈ I) :
    Represents h I basis c G where
  __ := hc
  sub_mem := by
    rw [← sub_add_sub_cancel G F]
    exact Ideal.add_mem _ hFG hc.sub_mem

private theorem check_ok (hc : Represents h I basis c F) (hd : Represents h I basis d G) :
    c.check d = .ok () := by
  rw [IdealResidue.check, hc.basis_eq, hd.basis_eq, hc.order_eq, hd.order_eq, sameBasis_refl]
  simp

section Field

variable [Coefficient R] [FieldCoefficient R] (hI : IsGroebnerBasisOf order n I basis)
include hI

theorem of_ok (h : order.accepts n = true) {f : Polynomial R} (hf : f.nvars = n) :
    ∃ c, (IdealResidue.of f basis (.given order) none).result = .ok c ∧
      Represents h I basis c (f.denote n) := by
  obtain ⟨r, hr, hrn, hnf⟩ := hI.reduce_spec h hf
  refine ⟨⟨r, basis, .given order, none⟩, ?_, rfl, rfl, rfl, hrn, hnf.irreducible, ?_⟩
  · have horder : (OrderChoice.given order).resolve = .ok order := rfl
    rw [IdealResidue.of, Traced.result_lift_bind horder, Traced.result_bind hr]
    rfl
  · rw [← hI.span_eq]
    exact hnf.sub_mem_ideal

theorem classOf_ok (hc : Represents h I basis c F) {f : Polynomial R} (hf : f.nvars = n) :
    ∃ e, (c.classOf f).result = .ok e ∧ Represents h I basis e (f.denote n) := by
  rw [IdealResidue.classOf, hc.basis_eq, hc.order_eq, hc.tolerance_eq]
  exact of_ok hI h hf

theorem agrees_iff (hc : Represents h I basis c F) (hd : Represents h I basis d G) :
    c.polynomial.agrees d.polynomial = true ↔ F - G ∈ I := by
  have hunit := hI.proper.isUnit_leadingCoeff (order.monomialOrder n h)
  have heq := hc.irreducible.isNormalForm.eq_iff_sub_mem hd.irreducible.isNormalForm rfl
    (hI.isGroebner h) (hI.isGroebner h) hunit hunit
  rw [Polynomial.agrees_iff hc.nvars_eq hd.nvars_eq, heq, hI.span_eq]
  have hsplit : F - G = F - c.polynomial.denote n - (G - d.polynomial.denote n) +
      (c.polynomial.denote n - d.polynomial.denote n) := by ring
  rw [hsplit]
  exact (Ideal.add_mem_iff_right I (Ideal.sub_mem _ hc.sub_mem hd.sub_mem)).symm

theorem same_iff (hc : Represents h I basis c F) (hd : Represents h I basis d G) :
    c.same d = true ↔ F - G ∈ I := by
  have hsame : c.same d = c.polynomial.agrees d.polynomial := by
    rw [IdealResidue.same, hc.basis_eq, hd.basis_eq, hc.order_eq, hd.order_eq, sameBasis_refl]
    simp
  rw [hsame, hc.agrees_iff hI hd]

theorem classOf_apply_ok (op : Operator) (hc : Represents h I basis c F) {p q : Polynomial R}
    (hp : p.nvars = n) (hq : q.nvars = n) (hF : F - p.denote n ∈ I) (hG : G - q.denote n ∈ I) :
    ∃ r e, op.onPolynomials p q = .ok r ∧ (c.classOf r).result = .ok e ∧
      Represents h I basis e (op.apply F G) := by
  obtain ⟨r, hr, hrn, hrd⟩ := op.onPolynomials_ok hp hq
  obtain ⟨e, he, hrep⟩ := hc.classOf_ok hI hrn
  refine ⟨r, e, hr, he, hrep.of_sub_mem ?_⟩
  rw [hrd]
  exact op.apply_sub_mem hF hG

theorem combine_ok (op : Operator) (hc : Represents h I basis c F)
    (hd : Represents h I basis d G) :
    ∃ e, (op.onIdealResidues c d).result = .ok e ∧ Represents h I basis e (op.apply F G) := by
  obtain ⟨r, e, hr, he, hrep⟩ :=
    hc.classOf_apply_ok hI op hc.nvars_eq hd.nvars_eq hc.sub_mem hd.sub_mem
  refine ⟨e, ?_, hrep⟩
  have hcheck := hc.check_ok hd
  cases op <;>
    exact (Traced.result_lift_bind hcheck _).trans ((Traced.result_lift_bind hr _).trans he)

theorem neg_ok (hc : Represents h I basis c F) :
    ∃ e, c.neg.result = .ok e ∧ Represents h I basis e (-F) := by
  obtain ⟨hn, hd⟩ := neg_spec hc.nvars_eq
  obtain ⟨e, he, hrep⟩ := hc.classOf_ok hI hn
  refine ⟨e, he, hrep.of_sub_mem ?_⟩
  have heq : -F - (-c.polynomial).denote n = -(F - c.polynomial.denote n) := by
    rw [hd]
    ring
  rw [heq]
  exact (Ideal.neg_mem_iff _).mpr hc.sub_mem

end Field

end Represents

end PolyIdeal
