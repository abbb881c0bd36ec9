import Mathlib.RingTheory.Ideal.Quotient.Basic
import PolyIdeal.Proofs.Euclid.Gcd
import PolyIdeal.Value.RingElement

/-!
# Residue classes

Modulo an element other than zero the classes are the elements of the quotient ring: a class is kept
by one of its members, which all of them leave as their remainder, so that it does not matter by which
members classes are added, subtracted and multiplied. A class has an inverse just if its members are
coprime to the modulus.
-/

namespace PolyIdeal

open PolyIdeal.Euclidean LawfulEuclidean

private theorem Operator.map_apply {S T : Type} [CommRing S] [CommRing T] (op : Operator)
    (f : S →+* T) (a b : S) : f (op.apply a b) = op.apply (f a) (f b) := by
  cases op with
  | add => exact map_add f a b
  | sub => exact map_sub f a b
  | mul => exact map_mul f a b

section Quotient

variable {E S : Type} [Euclidean E] [CommRing S] [LawfulEuclidean E S] {a a' b b' m : E}

/-- The element of the quotient ring by the multiples of `m`. -/
def quotientBy (m a : E) : S ⧸ Ideal.span {denote m} :=
  Ideal.Quotient.mk _ (denote a)

theorem congruent_iff_quotientBy : Congruent a b m ↔ quotientBy m a = quotientBy m b := by
  rw [congruent_iff, quotientBy, quotientBy, Ideal.Quotient.eq, Ideal.mem_span_singleton]

include S in
private theorem denote_apply (op : Operator) (a b : E) :
    denote (op.apply a b) = op.apply (denote a) (denote b) := by
  cases op with
  | add => exact denote_add a b
  | sub => exact denote_sub a b
  | mul => exact denote_mul a b

private theorem quotientBy_one (m : E) : quotientBy m 1 = 1 := by
  rw [quotientBy, denote_one, map_one]

private theorem quotientBy_apply (op : Operator) (m a b : E) :
    quotientBy m (op.apply a b) = op.apply (quotientBy m a) (quotientBy m b) := by
  rw [quotientBy, denote_apply, Operator.map_apply]
  rfl

include S in
theorem Operator.apply_congruent (op : Operator) (ha : Congruent a a' m) (hb : Congruent b b' m) :
    Congruent (op.apply a b) (op.apply a' b') m := by
  rw [congruent_iff_quotientBy] at ha hb ⊢
  rw [quotientBy_apply, quotientBy_apply, ha, hb]

include S in
theorem Operator.apply_comm {op : Operator} (h : op ≠ .sub) (a b : E) :
    op.apply a b = op.apply b a := by
  apply (denote_bijective (E := E)).injective
  rw [denote_apply, denote_apply]
  cases op with
  | add => exact add_comm _ _
  | sub => exact absurd rfl h
  | mul => exact mul_comm _ _

include S in
theorem congruent_refl (a m : E) : Congruent a a m :=
  congruent_iff_quotientBy.mpr rfl

include S in
private theorem coprime_congr (h : Congruent a b m) : Coprime a m ↔ Coprime b m := by
  obtain ⟨q, hq⟩ := h
  have hvalue : denote a = denote b + denote q * denote m := by
    rw [← denote_mul, ← hq, denote_sub, add_sub_cancel]
  rw [coprime_iff, coprime_iff, hvalue, IsCoprime.add_mul_right_left_iff]

end Quotient

attribute [ext] ResidueClass

namespace ResidueClass

section Projection

variable {E : Type} [Euclidean E]

/-- Every element is taken to its class modulo `m`. -/
def IsProjection (m : E) (C : E → ResidueClass E) : Prop :=
  ∀ a, ResidueClass.of a m = .ok (C a)

variable {S : Type} [CommRing S] [LawfulEuclidean E S] {m : E} (hm : isZero m = false)
include hm

private theorem of_eq (a : E) : ResidueClass.of a m = (rem a m).map fun r => ⟨r, m⟩ :=
  if_neg (by rw [hm]; exact Bool.false_ne_true)

include S in
theorem exists_isProjection : ∃ C, IsProjection m C := by
  have hok (a : E) : ∃ c, ResidueClass.of a m = .ok c := by
    obtain ⟨r, hrem, -⟩ := rem_ok a m hm
    exact ⟨⟨r, m⟩, by rw [of_eq hm, hrem]; rfl⟩
  choose C hC using hok
  exact ⟨C, hC⟩

namespace IsProjection

variable {C : E → ResidueClass E} (hC : IsProjection m C) (a b : E)
include S hC

private theorem spec : (C a).modulus = m ∧ Congruent (C a).value a m := by
  obtain ⟨r, hrem, hr⟩ := rem_ok a m hm
  have hof : ResidueClass.of a m = .ok ⟨r, m⟩ := by
    rw [of_eq hm, hrem]
    rfl
  obtain hc : C a = ⟨r, m⟩ := Except.ok.inj ((hC a).symm.trans hof)
  rw [hc]
  exact ⟨rfl, congruent_iff.mpr (dvd_sub_comm.mp hr)⟩

theorem modulus_eq : (C a).modulus = m :=
  (hC.spec hm a).1

private theorem congruent_value : Congruent (C a).value a m :=
  (hC.spec hm a).2

variable {a b}

private theorem eq_iff : C a = C b ↔ Congruent a b m := by
  constructor
  · intro h
    have ha := congruent_iff_quotientBy.mp (hC.congruent_value hm a)
    have hb := congruent_iff_quotientBy.mp (hC.congruent_value hm b)
    rw [h] at ha
    exact congruent_iff_quotientBy.mpr (ha.symm.trans hb)
  · intro h
    have hclass : ResidueClass.of a m = ResidueClass.of b m := by
      rw [of_eq hm, of_eq hm, rem_congr a b m hm (congruent_iff.mp h)]
    rw [hC, hC] at hclass
    exact Except.ok.inj hclass

section Operations

variable (hsame : ∀ a b : E, Euclidean.same a b = true ↔ a = b)

include hsame in
theorem same_iff : (C a).same (C b) = true ↔ Congruent a b m := by
  rw [same, Bool.and_eq_true, hsame, hsame, hC.modulus_eq hm, hC.modulus_eq hm,
    and_iff_right rfl, ← hC.eq_iff hm, ResidueClass.ext_iff, hC.modulus_eq hm, hC.modulus_eq hm,
    and_iff_left rfl]

include hsame in
theorem onResidueClasses (op : Operator) (a b : E) :
    op.onResidueClasses (C a) (C b) = .ok (C (op.apply a b)) := by
  have hcheck : (C a).check (C b) = .ok () :=
    if_pos (by rw [hsame, hC.modulus_eq hm, hC.modulus_eq hm])
  have hvalues := op.apply_congruent (hC.congruent_value hm a) (hC.congruent_value hm b)
  have hof : ResidueClass.of (op.apply (C a).value (C b).value) (C a).modulus =
      .ok (C (op.apply a b)) := by
    rw [hC.modulus_eq hm, hC, (hC.eq_iff hm).mpr hvalues]
  cases op with
  | add =>
    rw [Operator.onResidueClasses, add, hcheck]
    exact hof
  | sub =>
    rw [Operator.onResidueClasses, sub, hcheck]
    exact hof
  | mul =>
    rw [Operator.onResidueClasses, mul, hcheck]
    exact hof

end Operations

theorem neg_eq (a : E) : (C a).neg = .ok (C (0 - a)) := by
  have hvalue := Operator.sub.apply_congruent (congruent_refl 0 m) (hC.congruent_value hm a)
  rw [neg, hC.modulus_eq hm, hC]
  exact congrArg Except.ok ((hC.eq_iff hm).mpr hvalue)

/-- The inverse of a class is the only one that has the product one with it. -/
theorem inverse_ok (h : Coprime a m) :
    ∃ c, (C a).inverse = .ok (C c) ∧ ∀ d, C (a * d) = C 1 ↔ C d = C c := by
  have hvalue := hC.congruent_value hm a
  obtain ⟨c, hinverse, hc⟩ :=
    inverseMod_of_isCoprime hm (coprime_iff.mp ((coprime_congr hvalue).mpr h))
  have hone : quotientBy m a * quotientBy m c = 1 := by
    rw [← congruent_iff_quotientBy.mp hvalue, mul_comm, quotientBy, quotientBy, ← map_mul,
      eq_comm, ← map_one (Ideal.Quotient.mk _), Ideal.Quotient.eq, Ideal.mem_span_singleton]
    exact hc
  refine ⟨c, ?_, fun d => ?_⟩
  · rw [inverse, hC.modulus_eq hm, hinverse]
    exact hC c
  · have hmul : quotientBy m (a * d) = quotientBy m a * quotientBy m d :=
      quotientBy_apply .mul m a d
    rw [hC.eq_iff hm, hC.eq_iff hm, congruent_iff_quotientBy, congruent_iff_quotientBy, hmul,
      quotientBy_one]
    constructor
    · intro hd
      exact left_inv_eq_right_inv ((mul_comm _ _).trans hd) hone
    · intro hd
      rw [hd, hone]

theorem inverse_error (h : ¬ Coprime a m) :
    ∃ cause, (C a).inverse = .error (.arithmetic cause) := by
  have hvalue := hC.congruent_value hm a
  obtain ⟨cause, hinverse⟩ := inverseMod_of_not_isCoprime
    (mt (fun hcoprime => (coprime_congr hvalue).mp (coprime_iff.mpr hcoprime)) h)
  refine ⟨cause, ?_⟩
  rw [inverse, hC.modulus_eq hm, hinverse]
  rfl

end IsProjection

end Projection

end ResidueClass

end PolyIdeal
