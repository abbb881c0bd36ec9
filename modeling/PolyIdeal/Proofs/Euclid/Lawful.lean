import Mathlib.Algebra.MvPolynomial.NoZeroDivisors
import Mathlib.Algebra.MvPolynomial.Nilpotent
import PolyIdeal.Euclid.AnyRing
import PolyIdeal.Proofs.Coefficient.FieldDomain
import PolyIdeal.Proofs.Univariate.Division

/-!
# Euclidean rings with their laws

The integers and the polynomials in one variable over a field stand for the elements of an integral
domain. Division leaves smaller remainders there, congruent dividends have their remainder in common,
and a division that has to come out even is refused just for what is no multiple.
-/

namespace PolyIdeal

namespace Euclidean

variable {E : Type} [Euclidean E]

def Congruent (a b m : E) : Prop :=
  ∃ q, a - b = q * m

def Divides (d a : E) : Prop :=
  ∃ q, q * d = a

/-- Whether one is a combination of two elements. -/
def Coprime (a b : E) : Prop :=
  ∃ r s, r * a + s * b = 1

end Euclidean

/-- The elements stand for those of an integral domain, with its operations and a division with
remainder. -/
class LawfulEuclidean (E : Type) [Euclidean E] (S : outParam Type) [CommRing S] where
  denote : E → S
  isDomain : IsDomain S
  denote_bijective : Function.Bijective denote
  denote_zero : denote 0 = 0
  denote_one : denote 1 = 1
  denote_add : ∀ a b : E, denote (a + b) = denote a + denote b
  denote_sub : ∀ a b : E, denote (a - b) = denote a - denote b
  denote_mul : ∀ a b : E, denote (a * b) = denote a * denote b
  isZero_iff : ∀ a : E, Euclidean.isZero a = true ↔ denote a = 0
  quo_ok : ∀ a b : E, Euclidean.isZero b = false →
    ∃ q, Euclidean.quo a b = .ok q ∧ Euclidean.size (a - q * b) < Euclidean.size b
  rem_ok : ∀ a b : E, Euclidean.isZero b = false →
    ∃ r, Euclidean.rem a b = .ok r ∧ denote b ∣ denote a - denote r
  rem_congr : ∀ a a' b : E, Euclidean.isZero b = false → denote b ∣ denote a - denote a' →
    Euclidean.rem a b = Euclidean.rem a' b
  exquo_of_dvd : ∀ a b : E, Euclidean.isZero b = false → denote b ∣ denote a →
    ∃ q, Euclidean.exquo a b = .ok q ∧ denote q * denote b = denote a
  exquo_of_not_dvd : ∀ a b : E, Euclidean.isZero b = false → ¬ denote b ∣ denote a →
    ∃ e, Euclidean.exquo a b = .error e ∧ (e = .inexact ∨ e = .notInvertible ∨ e = .zeroDivision)

namespace LawfulEuclidean

attribute [simp] denote_zero denote_one denote_add denote_sub denote_mul

section Transfer

variable {E S : Type} [Euclidean E] [CommRing S] [LawfulEuclidean E S] {a b m : E}

theorem congruent_iff : Euclidean.Congruent a b m ↔ denote m ∣ denote a - denote b := by
  constructor
  · rintro ⟨q, hq⟩
    refine ⟨denote q, ?_⟩
    rw [← denote_sub, hq, denote_mul, mul_comm]
  · rintro ⟨s, hs⟩
    obtain ⟨q, rfl⟩ := (denote_bijective (E := E)).surjective s
    refine ⟨q, denote_bijective.injective ?_⟩
    rw [denote_sub, hs, denote_mul, mul_comm]

theorem divides_iff : Euclidean.Divides a b ↔ denote a ∣ denote b := by
  constructor
  · rintro ⟨q, rfl⟩
    rw [denote_mul]
    exact Dvd.intro_left _ rfl
  · rintro ⟨s, hs⟩
    obtain ⟨q, rfl⟩ := (denote_bijective (E := E)).surjective s
    refine ⟨q, denote_bijective.injective ?_⟩
    rw [denote_mul, hs, mul_comm]

theorem coprime_iff : Euclidean.Coprime a b ↔ IsCoprime (denote a) (denote b) := by
  constructor
  · rintro ⟨r, s, hrs⟩
    refine ⟨denote r, denote s, ?_⟩
    rw [← denote_mul, ← denote_mul, ← denote_add, hrs, denote_one]
  · rintro ⟨r', s', hrs⟩
    obtain ⟨r, rfl⟩ := (denote_bijective (E := E)).surjective r'
    obtain ⟨s, rfl⟩ := (denote_bijective (E := E)).surjective s'
    refine ⟨r, s, denote_bijective.injective ?_⟩
    rw [denote_add, denote_mul, denote_mul, hrs, denote_one]

theorem isZero_eq_false_iff : Euclidean.isZero a = false ↔ denote a ≠ 0 := by
  rw [← Bool.not_eq_true, isZero_iff]

theorem exquo_of_isUnit (b : E) (h : IsUnit (denote b)) :
    ∃ u, Euclidean.exquo 1 b = .ok u ∧ denote u * denote b = 1 := by
  have := isDomain (E := E)
  have hdvd : denote b ∣ denote (1 : E) := by
    rw [denote_one]
    exact h.dvd
  obtain ⟨u, hexquo, hu⟩ := exquo_of_dvd 1 b (isZero_eq_false_iff.mpr h.ne_zero) hdvd
  exact ⟨u, hexquo, hu.trans denote_one⟩

theorem exquo_of_not_isUnit (b : E) (hb : Euclidean.isZero b = false) (h : ¬ IsUnit (denote b)) :
    ∃ e, Euclidean.exquo 1 b = .error e ∧
      (e = .inexact ∨ e = .notInvertible ∨ e = .zeroDivision) := by
  refine exquo_of_not_dvd 1 b hb ?_
  rw [denote_one, ← isUnit_iff_dvd_one]
  exact h

end Transfer

section Integers

private theorem natAbs_fmod_lt (a : ℤ) {b : ℤ} (hb : b ≠ 0) : (Int.fmod a b).natAbs < b.natAbs := by
  have hnonneg := Int.emod_nonneg a hb
  have hlt := Int.emod_lt_abs a hb
  have hdvd : b ∣ a ↔ a % b = 0 := Int.dvd_iff_emod_eq_zero
  rw [Int.abs_eq_natAbs] at hlt
  rw [Int.fmod_eq_emod]
  split <;> omega

private theorem dvd_sub_fmod (a b : ℤ) : b ∣ a - Int.fmod a b :=
  ⟨Int.fdiv a b, by rw [Int.fmod_def, sub_sub_cancel]⟩

private theorem fmod_congr {a a' b : ℤ} (h : b ∣ a - a') : Int.fmod a b = Int.fmod a' b := by
  have hmod : a % b = a' % b :=
    Int.emod_eq_emod_iff_emod_sub_eq_zero.mpr (Int.emod_eq_zero_of_dvd h)
  rw [Int.fmod_eq_emod, Int.fmod_eq_emod, hmod]
  simp only [Int.dvd_iff_dvd_of_dvd_sub h]

instance : LawfulEuclidean ℤ ℤ where
  denote := id
  isDomain := inferInstance
  denote_bijective := Function.bijective_id
  denote_zero := rfl
  denote_one := rfl
  denote_add _ _ := rfl
  denote_sub _ _ := rfl
  denote_mul _ _ := rfl
  isZero_iff a := beq_iff_eq
  quo_ok a b hb := by
    have hne : b ≠ 0 := by simpa [Euclidean.isZero] using hb
    refine ⟨Int.fdiv a b, if_neg hne, ?_⟩
    show (a - Int.fdiv a b * b).natAbs < b.natAbs
    rw [mul_comm, ← Int.fmod_def]
    exact natAbs_fmod_lt a hne
  rem_ok a b hb := by
    have hne : b ≠ 0 := by simpa [Euclidean.isZero] using hb
    exact ⟨Int.fmod a b, if_neg hne, dvd_sub_fmod a b⟩
  rem_congr a a' b hb hdvd := by
    show (if b = 0 then _ else _) = (if b = 0 then _ else _)
    rw [fmod_congr (show b ∣ a - a' from hdvd)]
  exquo_of_dvd a b hb hdvd := by
    have hne : b ≠ 0 := by simpa [Euclidean.isZero] using hb
    obtain ⟨q, hq⟩ := exists_eq_mul_left_of_dvd (show b ∣ a from hdvd)
    have hquo : Coefficient.exquo? a b = some q :=
      ExactCoefficient.exquo?_eq_some.mpr ⟨hne, hq.symm⟩
    refine ⟨q, ?_, hq.symm⟩
    show Coefficient.exquo a b = _
    rw [Coefficient.exquo, hquo]
  exquo_of_not_dvd a b hb hdvd := by
    have hne : b ≠ 0 := by simpa [Euclidean.isZero] using hb
    have hquo : Coefficient.exquo? a b = none := by
      rw [Option.eq_none_iff_forall_ne_some]
      intro q hq
      exact hdvd (Dvd.intro_left q (ExactCoefficient.exquo?_eq_some.mp hq).2)
    refine ⟨.inexact, ?_, .inl rfl⟩
    show Coefficient.exquo a b = _
    rw [Coefficient.exquo, hquo]
    exact congrArg Except.error (if_neg hne)

end Integers

section Polynomials

open MvPolynomial Univariate

variable {R : Type} [CommRing R] [DecidableEq R]

theorem horner_one : horner (1 : Univariate R).coefficients = 1 := by
  show horner (ofCoefficients [(1 : R)]).coefficients = 1
  rw [horner_ofCoefficients, horner_cons, horner_nil, mul_zero, add_zero, map_one]

variable [Coefficient R] [FieldCoefficient R]

omit [Coefficient R] [FieldCoefficient R] in
private theorem horner_dvd_horner_iff {f g : Univariate R} :
    horner g.coefficients ∣ horner f.coefficients ↔ ∃ q, q * g = f := by
  constructor
  · rintro ⟨w, hw⟩
    obtain ⟨q, rfl⟩ := horner_surjective w
    refine ⟨q, horner_injective ?_⟩
    rw [horner_mul, hw, mul_comm]
  · rintro ⟨q, rfl⟩
    rw [horner_mul]
    exact Dvd.intro_left _ rfl

theorem modulo_congr {a a' b : Univariate R} (hb : b.isZero = false)
    (hdvd : horner b.coefficients ∣ horner a.coefficients - horner a'.coefficients) :
    a.modulo b = a'.modulo b := by
  obtain ⟨q, r, hdivide, hsize, hsum⟩ := divMod_ok a' hb
  rw [← horner_sub, horner_dvd_horner_iff] at hdvd
  obtain ⟨w, hw⟩ := hdvd
  have hdivide' : a.divMod b = .ok (w + q, r) := by
    refine (divMod_eq_ok_iff hb).mpr ⟨horner_injective ?_, hsize⟩
    have hdifference := congrArg (fun p : Univariate R => horner p.coefficients) hw
    simp only [horner_mul, horner_sub] at hdifference
    rw [horner_add, horner_mul, horner_add]
    linear_combination hsum - hdifference
  rw [modulo, modulo, hdivide, hdivide']
  rfl

private theorem exactDivision_mul {g : Univariate R} (hg : g.isZero = false) (q : Univariate R) :
    Euclidean.exactDivision (q * g) g = .ok q := by
  rw [Euclidean.exactDivision, divMod_mul hg]
  rfl

private theorem exactDivision_of_not_multiple {f g : Univariate R} (hg : g.isZero = false)
    (h : ∀ q, q * g ≠ f) : Euclidean.exactDivision f g = .error .inexact := by
  obtain ⟨q, r, hdivide, hr⟩ := divMod_of_not_multiple hg h
  rw [Euclidean.exactDivision, hdivide]
  simp only [bind, Except.bind, hr]
  rfl

noncomputable instance : LawfulEuclidean (Univariate R) (MvPolynomial (Fin 1) R) where
  denote p := horner p.coefficients
  isDomain := inferInstance
  denote_bijective := ⟨fun _ _ => horner_injective, horner_surjective⟩
  denote_zero := rfl
  denote_one := horner_one
  denote_add := horner_add
  denote_sub := horner_sub
  denote_mul := horner_mul
  isZero_iff p := horner_eq_zero_iff.symm
  quo_ok a b hb := by
    obtain ⟨q, r, hdivide, hsize, hsum⟩ := divMod_ok a hb
    refine ⟨q, ?_, ?_⟩
    · show (divMod a b).map Prod.fst = _
      rw [hdivide]
      rfl
    · have hvalue : a - q * b = r := by
        apply horner_injective
        rw [horner_sub, horner_mul, hsum, add_sub_cancel_left]
      rw [hvalue]
      exact hsize
  rem_ok a b hb := by
    obtain ⟨q, r, hdivide, -, hsum⟩ := divMod_ok a hb
    refine ⟨r, ?_, horner q.coefficients, ?_⟩
    · show (divMod a b).map Prod.snd = _
      rw [hdivide]
      rfl
    · rw [hsum, add_sub_cancel_right, mul_comm]
  rem_congr a a' b hb hdvd := modulo_congr hb hdvd
  exquo_of_dvd a b hb hdvd := by
    obtain ⟨q, rfl⟩ := horner_dvd_horner_iff.mp hdvd
    exact ⟨q, exactDivision_mul hb q, (horner_mul q b).symm⟩
  exquo_of_not_dvd a b hb hdvd := by
    refine ⟨.inexact, exactDivision_of_not_multiple hb fun q hq => hdvd ?_, .inl rfl⟩
    exact horner_dvd_horner_iff.mpr ⟨q, hq⟩

end Polynomials

end LawfulEuclidean

end PolyIdeal
