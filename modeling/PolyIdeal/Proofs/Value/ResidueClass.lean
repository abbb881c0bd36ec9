import PolyIdeal.Proofs.Euclid.Congruence
import PolyIdeal.Proofs.Euclid.ResidueClass
import PolyIdeal.Value.Operators

/-!
# The quotient ring of a Euclidean ring by operators

Over a ring with an exact division the operators on residue classes, and on classes and elements of
the ring on either side, are those of the quotient ring by the multiples of the modulus.
-/

namespace PolyIdeal

open PolyIdeal.Euclidean LawfulEuclidean

instance (A : Ring) : Neg A.Elem :=
  match A with
  | .domain D => inferInstanceAs (Neg D.Elem)
  | .polynomials K => inferInstanceAs (Neg (Univariate K.Elem))

/-- Every element is taken to its class modulo `m`, and the operators on classes are those of the
ring on their members. -/
structure IsQuotientBy (A : Ring) (m : A.Elem) (C : A.Elem → AnyResidueClass) : Prop where
  create_eq (a : A.Elem) :
    AnyResidueClass.create A (.ofRingElement a) (.ofRingElement m) = .ok (C a)
  same_iff (a b : A.Elem) : (C a).same (C b) = true ↔ Congruent a b m
  combine (op : Operator) (a b : A.Elem) :
    (Value.combine op (.residueClass (C a)) (.residueClass (C b))).result =
      .ok (.residueClass (C (op.apply a b)))
  /-- Elements on the right are brought to their classes. -/
  combine_element (op : Operator) (a b : A.Elem) :
    (Value.combine op (.residueClass (C a)) (.ofRingElement b)).result =
      .ok (.residueClass (C (op.apply a b)))
  element_combine (op : Operator) (a b : A.Elem) :
    (Value.combine op (.ofRingElement a) (.residueClass (C b))).result =
      .ok (.residueClass (C (op.apply a b)))
  neg (a : A.Elem) : (Value.neg (.residueClass (C a))).result = .ok (.residueClass (C (-a)))
  /-- The inverse is the one class with which the product is that of one. -/
  inverse_ok (a : A.Elem) (h : Coprime a m) : ∃ c, (C a).inverse = .ok (C c) ∧
    ∀ d, (Value.combine .mul (.residueClass (C a)) (.residueClass (C d))).result =
      .ok (.residueClass (C 1)) ↔ C d = C c
  inverse_error (a : A.Elem) (h : ¬ Coprime a m) :
    ∃ cause, (C a).inverse = .error (.arithmetic cause)

namespace Ring.IsExact

variable {A : Ring} (hA : A.IsExact)
include hA

open FieldDomain in
theorem exists_lawful :
    ∃ (S : Type) (_ : CommRing S), Nonempty (LawfulEuclidean A.Elem S) := by
  cases hA with
  | integers => exact ⟨ℤ, inferInstance, ⟨inferInstanceAs (LawfulEuclidean ℤ ℤ)⟩⟩
  | polynomials K =>
    exact ⟨MvPolynomial (Fin 1) K.Elem, inferInstance,
      ⟨inferInstanceAs (LawfulEuclidean (Univariate K.Elem) (MvPolynomial (Fin 1) K.Elem))⟩⟩

private theorem same_iff_eq (a b : A.Elem) : Euclidean.same a b = true ↔ a = b := by
  cases hA with
  | integers => exact beq_iff_eq (α := ℤ)
  | polynomials K => exact decide_eq_true_iff

theorem convert_ofRingElement (a : A.Elem) : A.convert (.ofRingElement a) = .ok a := by
  cases hA with
  | integers => rfl
  | polynomials K => exact dif_pos rfl

open FieldDomain in
private theorem neg_eq (a : A.Elem) : -a = 0 - a := by
  cases hA with
  | integers => exact (Int.zero_sub a).symm
  | polynomials K =>
    apply Univariate.horner_injective (R := K.Elem)
    exact (Univariate.horner_neg (R := K.Elem) a).trans
      ((zero_sub _).symm.trans (Univariate.horner_sub (R := K.Elem) 0 a).symm)

end Ring.IsExact

namespace AnyResidueClass

variable {A : Ring}

private theorem combine_ofRingElement (op : Operator) (a : A.Elem) (c : AnyResidueClass) :
    Value.combine op (.ofRingElement a) (.residueClass c) =
      .lift ((combineLeft op (.ofRingElement a) c).map .residueClass) := by
  cases A <;> rfl

private theorem operand_ofRingElement (c : AnyResidueClass) (a : A.Elem) :
    c.operand (.ofRingElement a) =
      (c.ring.convert (.ofRingElement a)).bind (ResidueClass.of · c.residue.modulus) := by
  cases A <;> rfl

section Projection

variable {S : Type} [CommRing S] [LawfulEuclidean A.Elem S] {m : A.Elem}
  {C : A.Elem → ResidueClass A.Elem} (hA : A.IsExact) (hm : isZero m = false)
  (hC : ResidueClass.IsProjection m C)
include hA hm hC

theorem create_ok (a : A.Elem) :
    create A (.ofRingElement a) (.ofRingElement m) = .ok ⟨A, C a⟩ := by
  rw [create, hA.convert_ofRingElement, hA.convert_ofRingElement]
  simp only [bind, Except.bind, hm, hC a]
  rfl

include S in
private theorem operand_class (a b : A.Elem) :
    operand ⟨A, C a⟩ (.residueClass ⟨A, C b⟩) = .ok (C b) := by
  have hsame : Euclidean.same (C a).modulus (C b).modulus = true := by
    rw [hA.same_iff_eq, hC.modulus_eq hm, hC.modulus_eq hm]
  exact (dif_pos rfl).trans (if_pos hsame)

include S in
private theorem operand_element (a b : A.Elem) :
    operand ⟨A, C a⟩ (.ofRingElement b) = .ok (C b) := by
  rw [operand_ofRingElement, hA.convert_ofRingElement]
  show ResidueClass.of b (C a).modulus = _
  rw [hC.modulus_eq hm, hC]

include S in
theorem combine_ok (op : Operator) (a : A.Elem) {b : A.Elem} {v : Value}
    (hv : operand ⟨A, C a⟩ v = .ok (C b)) :
    combine op ⟨A, C a⟩ v = .ok ⟨A, C (op.apply a b)⟩ := by
  rw [combine, hv]
  simp only [bind, Except.bind, hC.onResidueClasses hm hA.same_iff_eq]
  rfl

include S in
theorem combineLeft_ok (op : Operator) (a b : A.Elem) :
    combineLeft op (.ofRingElement a) ⟨A, C b⟩ = .ok ⟨A, C (op.apply a b)⟩ := by
  have helement := operand_element hA hm hC b a
  by_cases hop : op = .sub
  · subst hop
    have hsub : (C a).sub (C b) = .ok (C (a - b)) :=
      hC.onResidueClasses hm hA.same_iff_eq .sub a b
    rw [combineLeft, helement]
    simp only [bind, Except.bind, hsub]
    rfl
  · have hcombine : combineLeft op (.ofRingElement a) ⟨A, C b⟩ =
        combine op ⟨A, C b⟩ (.ofRingElement a) := by
      cases op with
      | add => rfl
      | sub => exact absurd rfl hop
      | mul => rfl
    rw [hcombine, combine_ok hA hm hC op b helement, Operator.apply_comm hop]

include S in
private theorem combine_classes (op : Operator) (a b : A.Elem) :
    (Value.combine op (.residueClass ⟨A, C a⟩) (.residueClass ⟨A, C b⟩)).result =
      .ok (.residueClass ⟨A, C (op.apply a b)⟩) :=
  congrArg (Except.map Value.residueClass)
    (combine_ok hA hm hC op a (operand_class hA hm hC a b))

include S in
private theorem isQuotientBy_of_isProjection : IsQuotientBy A m fun a => ⟨A, C a⟩ where
  create_eq := create_ok hA hm hC
  same_iff a b := by
    have hsame : same ⟨A, C a⟩ ⟨A, C b⟩ = (C a).same (C b) := dif_pos rfl
    rw [hsame, hC.same_iff hm hA.same_iff_eq]
  combine := combine_classes hA hm hC
  combine_element op a b := by
    have hcombine := combine_ok hA hm hC op a (operand_element hA hm hC a b)
    exact congrArg (Except.map Value.residueClass) hcombine
  element_combine op a b := by
    rw [combine_ofRingElement, combineLeft_ok hA hm hC]
    rfl
  neg a := by
    have hneg : AnyResidueClass.neg ⟨A, C a⟩ = .ok ⟨A, C (-a)⟩ := by
      rw [AnyResidueClass.neg, hA.neg_eq]
      simp only [bind, Except.bind, hC.neg_eq hm]
      rfl
    exact congrArg (Except.map Value.residueClass) hneg
  inverse_ok a h := by
    obtain ⟨c, hinverse, hunique⟩ := hC.inverse_ok hm h
    refine ⟨c, ?_, fun d => ?_⟩
    · rw [inverse]
      simp only [bind, Except.bind, hinverse]
      rfl
    · rw [combine_classes hA hm hC]
      simp only [Except.ok.injEq, Value.residueClass.injEq, AnyResidueClass.mk.injEq, heq_eq_eq,
        true_and]
      exact hunique d
  inverse_error a h := by
    obtain ⟨cause, hinverse⟩ := hC.inverse_error hm h
    refine ⟨cause, ?_⟩
    rw [inverse]
    simp only [bind, Except.bind, hinverse]

end Projection

end AnyResidueClass

/-- Residue classes are the quotient ring, by whatever element other than zero. -/
theorem exists_isQuotientBy {A : Ring} (hA : A.IsExact) (m : A.Elem) (hm : isZero m = false) :
    ∃ C, IsQuotientBy A m C := by
  obtain ⟨S, _, ⟨_⟩⟩ := hA.exists_lawful
  obtain ⟨C, hC⟩ := ResidueClass.exists_isProjection hm
  exact ⟨_, AnyResidueClass.isQuotientBy_of_isProjection hA hm hC⟩

open Univariate in
theorem exists_isQuotientBy_cases :
    (∃ C, IsQuotientBy (.domain .integers) (-6 : ℤ) C) ∧
      ∃ C, IsQuotientBy (.polynomials .rationals) (ofCoefficients [(2 : ℚ), 0, 2]) C :=
  ⟨exists_isQuotientBy .integers (-6 : ℤ) (by decide),
    exists_isQuotientBy (.polynomials .rationals) (ofCoefficients [(2 : ℚ), 0, 2]) (by decide)⟩

end PolyIdeal
