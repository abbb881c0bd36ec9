import Mathlib.RingTheory.Coprime.Lemmas
import Mathlib.RingTheory.Ideal.Span
import PolyIdeal.Proofs.Euclid.Lawful

/-!
# Greatest common divisors

Every step of the Euclidean algorithm leaves a smaller remainder, keeps the ideal of two neighbours
and a representation by the arguments. So the last remainder generates the ideal of the arguments:
it is their greatest common divisor, the product divided by it is their least common multiple, and
an inverse modulo an element is found just if the two are coprime.
-/

namespace PolyIdeal.Euclidean

open LawfulEuclidean

section Divisibility

variable {E : Type} [Euclidean E]

/-- The common divisors of two elements are the divisors of `g`. -/
structure IsGcd (g a b : E) : Prop where
  divides_left : Divides g a
  divides_right : Divides g b
  divides_of_common (d : E) : Divides d a → Divides d b → Divides d g

/-- The common multiples of two elements are the multiples of `l`. -/
structure IsLcm (l a b : E) : Prop where
  left_divides : Divides a l
  right_divides : Divides b l
  divides_of_common (c : E) : Divides a c → Divides b c → Divides l c

end Divisibility

section Lawful

variable {E S : Type} [Euclidean E] [CommRing S] [LawfulEuclidean E S] {a b : S} {x y : Combination E}

/-- The value is the combination of two elements that it is said to be. -/
def Combination.Represents (x : Combination E) (a b : S) : Prop :=
  denote x.value = denote x.r * a + denote x.s * b

private theorem Combination.Represents.minusMultiple (hx : x.Represents a b) (hy : y.Represents a b)
    (q : E) : (x.minusMultiple y q).Represents a b := by
  unfold Represents at hx hy ⊢
  simp only [Combination.minusMultiple, denote_sub, denote_mul, hx, hy]
  ring

/-- Remainders get smaller, so that the patience of the algorithm is never called on. -/
theorem lastRemainder_ok (patience : ℕ) (hx : x.Represents a b) (hy : y.Represents a b) :
    ∃ d, lastRemainder patience x y = .ok d ∧ d.Represents a b ∧
      Ideal.span {denote d.value} = Ideal.span {denote x.value, denote y.value} := by
  induction hk : size y.value using Nat.strong_induction_on generalizing x y with
  | _ k ih =>
    subst hk
    rw [lastRemainder]
    cases hzero : isZero y.value with
    | true =>
      refine ⟨x, if_pos rfl, hx, ?_⟩
      rw [(isZero_iff _).mp hzero, Ideal.span_pair_comm, Ideal.span_insert_zero]
    | false =>
      obtain ⟨q, hquo, hsize⟩ := quo_ok x.value y.value hzero
      obtain ⟨d, hd, hrepresents, hspan⟩ := ih _ hsize hy (hx.minusMultiple hy q) rfl
      refine ⟨d, ?_, hrepresents, ?_⟩
      · rw [if_neg Bool.false_ne_true, hquo]
        exact (dif_pos hsize).trans hd
      · have hstep : denote (x.minusMultiple y q).value =
            denote x.value + -denote q * denote y.value := by
          simp only [Combination.minusMultiple, denote_sub, denote_mul]
          ring
        rw [hspan, hstep, Ideal.span_pair_add_mul_left, Ideal.span_pair_comm]

/-- A greatest common divisor is a combination of its arguments and generates their ideal. -/
theorem extendedGcd_ok {a b : E} (hab : isZero a = false ∨ isZero b = false) :
    ∃ d, extendedGcd a b = .ok d ∧ d.Represents (denote a) (denote b) ∧
      Ideal.span {denote d.value} = Ideal.span {denote a, denote b} := by
  have ha : (⟨a, 1, 0⟩ : Combination E).Represents (denote a) (denote b) := by
    simp [Combination.Represents]
  have hb : (⟨b, 0, 1⟩ : Combination E).Represents (denote a) (denote b) := by
    simp [Combination.Represents]
  rw [extendedGcd]
  cases hzero : isZero b with
  | true =>
    have hne : isZero a = false := by simpa [hzero] using hab
    refine ⟨⟨a, 1, 0⟩, by simp [hne], ha, ?_⟩
    rw [(isZero_iff _).mp hzero, Ideal.span_pair_comm, Ideal.span_insert_zero]
  | false =>
    obtain ⟨d, hd, hrepresents, hspan⟩ := lastRemainder_ok patience ha hb
    refine ⟨d, ?_, hrepresents, hspan⟩
    rw [Bool.and_false, if_neg Bool.false_ne_true, if_neg Bool.false_ne_true, hd]

section Generator

variable {g a b : E} (hspan : Ideal.span {denote g} = Ideal.span {denote a, denote b})
include hspan

theorem isGcd_of_span : IsGcd g a b := by
  have hmem (s : S) : denote g ∣ s ↔ s ∈ Ideal.span {denote a, denote b} := by
    rw [← hspan, Ideal.mem_span_singleton]
  refine ⟨?_, ?_, ?_⟩
  · exact divides_iff.mpr ((hmem _).mpr (Ideal.subset_span (by simp)))
  · exact divides_iff.mpr ((hmem _).mpr (Ideal.subset_span (by simp)))
  · intro d ha hb
    obtain ⟨r, s, hrs⟩ := Ideal.mem_span_pair.mp ((hmem _).mp dvd_rfl)
    rw [divides_iff] at ha hb ⊢
    rw [← hrs]
    exact dvd_add (ha.mul_left r) (hb.mul_left s)

private theorem isZero_of_span (hab : isZero a = false ∨ isZero b = false) : isZero g = false := by
  have hgcd := isGcd_of_span hspan
  have hleft := divides_iff.mp hgcd.divides_left
  have hright := divides_iff.mp hgcd.divides_right
  rw [isZero_eq_false_iff] at hab ⊢
  rw [isZero_eq_false_iff] at hab
  intro hzero
  rw [hzero, zero_dvd_iff] at hleft hright
  exact hab.elim (absurd hleft) (absurd hright)

private theorem isUnit_iff_isCoprime : IsUnit (denote g) ↔ IsCoprime (denote a) (denote b) := by
  rw [← Ideal.span_singleton_eq_top, hspan, Ideal.eq_top_iff_one, Ideal.mem_span_pair]
  rfl

end Generator

section Inverse

variable {a m : E}

theorem unitCofactor_of_isCoprime (h : IsCoprime (denote a) (denote m)) (aText mText : String) :
    ∃ c, unitCofactor a m aText mText = .ok c ∧ denote m ∣ 1 - denote c * denote a := by
  have := isDomain (E := E)
  have ham : isZero a = false ∨ isZero m = false := by
    rw [isZero_eq_false_iff, isZero_eq_false_iff, ← not_and_or]
    rintro ⟨ha, hm⟩
    rw [ha, hm] at h
    exact not_isCoprime_zero_zero h
  obtain ⟨d, hd, hrepresents, hspan⟩ := extendedGcd_ok ham
  obtain ⟨u, hexquo, hu⟩ := exquo_of_isUnit d.value ((isUnit_iff_isCoprime hspan).mpr h)
  refine ⟨d.r * u, ?_, ?_⟩
  · rw [unitCofactor, hd]
    simp only [bind, Except.bind, hexquo]
    rfl
  · have hone : 1 - denote (d.r * u) * denote a = denote m * (denote u * denote d.s) := by
      unfold Combination.Represents at hrepresents
      rw [← hu, hrepresents, denote_mul]
      ring
    exact Dvd.intro _ hone.symm

theorem unitCofactor_of_not_isCoprime (h : ¬ IsCoprime (denote a) (denote m))
    (aText mText : String) :
    ∃ cause, unitCofactor a m aText mText = .error (.arithmetic cause) := by
  by_cases ham : isZero a = false ∨ isZero m = false
  · obtain ⟨d, hd, -, hspan⟩ := extendedGcd_ok ham
    obtain ⟨e, hexquo, he⟩ := exquo_of_not_isUnit d.value (isZero_of_span hspan ham)
      (mt (isUnit_iff_isCoprime hspan).mp h)
    refine ⟨.notInvertibleModulo aText mText (text d.value), ?_⟩
    rw [unitCofactor, hd]
    simp only [bind, Except.bind, hexquo, if_pos he]
    rfl
  · simp only [not_or, Bool.not_eq_false] at ham
    refine ⟨.gcdOfZeros, ?_⟩
    rw [unitCofactor, extendedGcd, ham.1, ham.2]
    rfl

theorem inverseMod_of_isCoprime (hm : isZero m = false) (h : IsCoprime (denote a) (denote m)) :
    ∃ c, inverseMod a m = .ok c ∧ denote m ∣ 1 - denote c * denote a := by
  obtain ⟨c, hcofactor, hc⟩ := unitCofactor_of_isCoprime h (text a) (text m)
  obtain ⟨r, hrem, hr⟩ := rem_ok c m hm
  refine ⟨r, ?_, ?_⟩
  · rw [inverseMod, hcofactor]
    exact hrem
  · have hone : 1 - denote r * denote a =
        (denote c - denote r) * denote a + (1 - denote c * denote a) := by ring
    rw [hone]
    exact dvd_add (hr.mul_right _) hc

theorem inverseMod_of_not_isCoprime (h : ¬ IsCoprime (denote a) (denote m)) :
    ∃ cause, inverseMod a m = .error (.arithmetic cause) := by
  obtain ⟨cause, hcofactor⟩ := unitCofactor_of_not_isCoprime h (text a) (text m)
  exact ⟨cause, by rw [inverseMod, hcofactor]; rfl⟩

end Inverse

section Multiple

variable {a b : E}

include S in
/-- The product of two elements other than zero divided by a greatest common divisor is a least
common multiple. -/
theorem lcm_ok (ha : isZero a = false) (hb : isZero b = false) :
    ∃ l g, lcm a b = .ok l ∧ gcd a b = .ok g ∧ l * g = a * b ∧ IsLcm l a b := by
  have := isDomain (E := E)
  obtain ⟨d, hd, hrepresents, hspan⟩ :=
    extendedGcd_ok (.inl ha : isZero a = false ∨ isZero b = false)
  have hzero := isZero_of_span hspan (.inl ha)
  have hne := isZero_eq_false_iff.mp hzero
  have hleft := divides_iff.mp (isGcd_of_span hspan).divides_left
  have hright := divides_iff.mp (isGcd_of_span hspan).divides_right
  have hdvd : denote d.value ∣ denote (a * b) := by
    rw [denote_mul]
    exact hleft.mul_right _
  obtain ⟨l, hexquo, hl⟩ := exquo_of_dvd (a * b) d.value hzero hdvd
  have hvalue : gcd a b = .ok d.value := by
    rw [gcd, hd]
    rfl
  rw [denote_mul] at hl
  -- What `l` divides is settled by multiplying with the greatest common divisor.
  refine ⟨l, d.value, ?_, hvalue, ?_, ?_, ?_, ?_⟩
  · rw [lcm, ha, hb, hvalue]
    show exactQuotient (a * b) d.value = .ok l
    rw [exactQuotient, hexquo]
  · apply (denote_bijective (E := E)).injective
    rw [denote_mul, denote_mul, hl]
  · rw [divides_iff, ← mul_dvd_mul_iff_right hne, hl]
    exact mul_dvd_mul_left _ hright
  · rw [divides_iff, ← mul_dvd_mul_iff_right hne, hl, mul_comm (denote a)]
    exact mul_dvd_mul_left _ hleft
  · intro c hac hbc
    rw [divides_iff] at hac hbc ⊢
    have hsum : denote c * denote d.value =
        denote a * denote c * denote d.r + denote c * denote b * denote d.s := by
      unfold Combination.Represents at hrepresents
      rw [hrepresents]
      ring
    rw [← mul_dvd_mul_iff_right hne, hl, hsum]
    exact dvd_add ((mul_dvd_mul_left _ hbc).mul_right _) ((mul_dvd_mul_right hac _).mul_right _)

end Multiple

end Lawful

section Integers

private theorem sign_fmod {a b : ℤ} (hb : b ≠ 0) (h : Int.fmod a b ≠ 0) :
    (Int.fmod a b).sign = b.sign := by
  have hnonneg := Int.emod_nonneg a hb
  have hlt := Int.emod_lt_abs a hb
  have hdvd : b ∣ a ↔ a % b = 0 := Int.dvd_iff_emod_eq_zero
  rw [Int.fmod_eq_emod] at h ⊢
  rcases lt_or_gt_of_ne hb with hneg | hpos
  · rw [abs_of_neg hneg] at hlt
    rw [Int.sign_eq_neg_one_of_neg hneg]
    apply Int.sign_eq_neg_one_of_neg
    split at h <;> split <;> omega
  · rw [if_pos (Or.inl hpos.le), add_zero] at h ⊢
    rw [Int.sign_eq_one_of_pos hpos, Int.sign_eq_one_of_pos (by omega)]

private theorem sign_minusMultiple {x y : Combination ℤ} {q : ℤ} (hy : ¬ isZero y.value = true)
    (hquo : quo x.value y.value = .ok q) :
    (if isZero (x.minusMultiple y q).value then y.value.sign
      else (x.minusMultiple y q).value.sign) = y.value.sign := by
  have hne : y.value ≠ 0 := fun hzero => hy (beq_iff_eq.mpr hzero)
  have hq : Int.fdiv x.value y.value = q := Except.ok.inj ((if_neg hne).symm.trans hquo)
  have hvalue : (x.minusMultiple y q).value = Int.fmod x.value y.value := by
    rw [← hq, Int.fmod_def, mul_comm]
    rfl
  rw [hvalue]
  split
  · rfl
  · rename_i hz
    exact sign_fmod hne fun hzero => hz (beq_iff_eq.mpr hzero)

private theorem sign_of_lastRemainder {patience : ℕ} {x y d : Combination ℤ}
    (h : lastRemainder patience x y = .ok d) :
    d.value.sign = if isZero y.value then x.value.sign else y.value.sign := by
  fun_induction lastRemainder patience x y with
  | case1 _ x y hzero =>
    obtain rfl := Except.ok.inj h
    exact (if_pos hzero).symm
  | case2 | case4 => cases h
  | case3 _ x y hzero q hquo _ _ ih | case5 x y hzero q hquo _ _ _ ih =>
    rw [ih h, sign_minusMultiple hzero hquo, if_neg hzero]

theorem sign_of_extendedGcd {a b : ℤ} {d : Combination ℤ} (h : extendedGcd a b = .ok d) :
    d.value.sign = if isZero b then a.sign else b.sign := by
  rw [extendedGcd] at h
  split at h
  · cases h
  · split at h
    · rename_i hzero
      obtain rfl := Except.ok.inj h
      exact (if_pos hzero).symm
    · exact sign_of_lastRemainder h

end Integers

theorem gcd_ok {R : Type} [CommRing R] [DecidableEq R] [Coefficient R] [FieldCoefficient R]
    {a b : Univariate R} (hab : a.isZero = false ∨ b.isZero = false) :
    ∃ d, gcd a b = .ok d ∧ Ideal.span {Univariate.horner d.coefficients} =
      Ideal.span {Univariate.horner a.coefficients, Univariate.horner b.coefficients} := by
  obtain ⟨d, hd, -, hspan⟩ := extendedGcd_ok (a := a) (b := b) hab
  exact ⟨d.value, by rw [gcd, hd]; rfl, hspan⟩

end PolyIdeal.Euclidean
