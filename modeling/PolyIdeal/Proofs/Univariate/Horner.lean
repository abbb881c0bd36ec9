import Mathlib.Algebra.MvPolynomial.CommRing
import Mathlib.Tactic.Ring
import PolyIdeal.Proofs.Univariate.Coefficients
import PolyIdeal.Univariate.Product

/-!
# Coefficient lists as polynomials

A coefficient list stands for a polynomial by Horner's scheme, with zeros at its end or without them.
So sums and products of lists need not be trimmed to be read.
-/

namespace PolyIdeal.Univariate

variable {R : Type} [CommRing R]

/-- The polynomial of a coefficient list. -/
noncomputable def horner : List R → MvPolynomial (Fin 1) R
  | [] => 0
  | a :: as => MvPolynomial.C a + MvPolynomial.X 0 * horner as

theorem coeff_horner (as : List R) (e : Fin 1 →₀ ℕ) : (horner as).coeff e = as.getD (e 0) 0 := by
  induction as generalizing e with
  | nil => simp [horner]
  | cons a as ih =>
    rw [horner, MvPolynomial.coeff_add, MvPolynomial.coeff_C, MvPolynomial.coeff_X_mul', ih]
    have hzero : 0 = e ↔ e 0 = 0 := by
      rw [eq_comm, Finsupp.ext_iff, Fin.forall_fin_one, Finsupp.zero_apply]
    cases he : e 0 with
    | zero => simp [hzero, he]
    | succ i => simp [hzero, he]

@[simp] theorem horner_cons (a : R) (as : List R) :
    horner (a :: as) = MvPolynomial.C a + MvPolynomial.X 0 * horner as := rfl

@[simp] theorem horner_nil : horner ([] : List R) = 0 := rfl

private theorem horner_addCoefficients (as bs : List R) :
    horner (addCoefficients as bs) = horner as + horner bs := by
  induction as generalizing bs with
  | nil => simp [addCoefficients]
  | cons a as ih =>
    cases bs with
    | nil => simp [addCoefficients]
    | cons b bs =>
      simp only [addCoefficients, horner_cons, ih, map_add]
      ring

private theorem horner_map_neg (as : List R) : horner (as.map (- ·)) = -horner as := by
  induction as with
  | nil => simp
  | cons a as ih =>
    simp only [List.map_cons, horner_cons, ih, map_neg]
    ring

private theorem horner_map_mul (c : R) (as : List R) :
    horner (as.map (c * ·)) = MvPolynomial.C c * horner as := by
  induction as with
  | nil => simp
  | cons a as ih =>
    simp only [List.map_cons, horner_cons, ih, map_mul]
    ring

theorem horner_append (as bs : List R) :
    horner (as ++ bs) = horner as + MvPolynomial.X 0 ^ as.length * horner bs := by
  induction as with
  | nil => simp
  | cons a as ih =>
    simp only [List.cons_append, horner_cons, ih, List.length_cons]
    ring

@[simp] theorem horner_replicate_zero (k : ℕ) : horner (List.replicate k (0 : R)) = 0 := by
  induction k with
  | zero => rfl
  | succ k ih => simp [List.replicate_succ, ih]

/-- The convolution adds a product; what is settled of it is not touched again. -/
private theorem horner_convolveOnto (bs as acc : List R) :
    horner (convolveOnto bs as acc) = horner acc + horner as * horner bs := by
  induction as generalizing acc with
  | nil => simp [convolveOnto]
  | cons a as ih =>
    have hsum : horner (addCoefficients acc (bs.map (a * ·))) =
        horner acc + MvPolynomial.C a * horner bs := by
      rw [horner_addCoefficients, horner_map_mul]
    rw [convolveOnto]
    cases hadd : addCoefficients acc (bs.map (a * ·)) with
    | nil =>
      -- Nothing is there to be added, now or later.
      have hlength := congrArg List.length hadd
      simp only [length_addCoefficients, List.length_map, List.length_nil] at hlength
      have hbs : bs = [] := List.length_eq_zero_iff.mp (by omega)
      have hacc : acc = [] := List.length_eq_zero_iff.mp (by omega)
      rw [ih, hbs, hacc, horner_nil, mul_zero, mul_zero]
    | cons c rest =>
      rw [hadd, horner_cons] at hsum
      rw [horner_cons, ih, horner_cons, mul_add, ← add_assoc, hsum]
      ring

section Trimmed

variable [DecidableEq R]

@[simp] theorem horner_ofCoefficients (as : List R) :
    horner (ofCoefficients as).coefficients = horner as := by
  ext e
  rw [coeff_horner, coeff_horner]
  exact coefficient_ofCoefficients as (e 0)

omit [DecidableEq R] in
theorem coefficient_eq_coeff (p : Univariate R) (i : ℕ) :
    p.coefficient i = (horner p.coefficients).coeff (Finsupp.single 0 i) := by
  rw [coeff_horner, Finsupp.single_eq_same]
  rfl

omit [DecidableEq R] in
theorem lt_size_of_mem_support {p : Univariate R} {e : Fin 1 →₀ ℕ}
    (he : e ∈ (horner p.coefficients).support) : e 0 < p.size := by
  rw [MvPolynomial.mem_support_iff, coeff_horner] at he
  by_contra hge
  exact he (size_le_iff.mp (Nat.le_refl p.size) (e 0) (Nat.le_of_not_lt hge))

omit [DecidableEq R] in
theorem horner_eq_zero {p : Univariate R} (h : p.isZero = true) : horner p.coefficients = 0 := by
  rw [List.isEmpty_iff.mp h]
  rfl

theorem horner_add (p q : Univariate R) :
    horner (p + q).coefficients = horner p.coefficients + horner q.coefficients :=
  (horner_ofCoefficients _).trans (horner_addCoefficients _ _)

theorem horner_sub (p q : Univariate R) :
    horner (p - q).coefficients = horner p.coefficients - horner q.coefficients := by
  ext e
  rw [MvPolynomial.coeff_sub, coeff_horner, coeff_horner, coeff_horner]
  exact coefficient_sub p q (e 0)

theorem horner_mulTerm (p : Univariate R) (k : ℕ) (c : R) :
    horner (p.mulTerm k c).coefficients =
      MvPolynomial.C c * MvPolynomial.X 0 ^ k * horner p.coefficients := by
  rw [mulTerm]
  split
  · rename_i hzero
    have hprod : MvPolynomial.C c * horner p.coefficients = 0 := by
      rcases hzero with hp | rfl
      · rw [horner_eq_zero hp, mul_zero]
      · rw [map_zero, zero_mul]
    rw [mul_right_comm, hprod, zero_mul]
    rfl
  · rw [horner_ofCoefficients, horner_append, horner_replicate_zero, horner_map_mul,
      List.length_replicate]
    ring

theorem horner_neg (p : Univariate R) : horner (-p).coefficients = -horner p.coefficients :=
  (horner_ofCoefficients _).trans (horner_map_neg _)

theorem horner_mul (p q : Univariate R) :
    horner (p * q).coefficients = horner p.coefficients * horner q.coefficients := by
  show horner (convolution p q).coefficients = _
  rw [convolution]
  split
  · rename_i hp
    rw [horner_eq_zero hp, zero_mul]
  · split
    · rename_i hq
      rw [horner_eq_zero hq, mul_zero]
    · rw [horner_ofCoefficients, horner_convolveOnto, horner_nil, zero_add]

theorem horner_surjective : Function.Surjective fun p : Univariate R => horner p.coefficients := by
  intro P
  induction P using MvPolynomial.induction_on with
  | C a => exact ⟨ofCoefficients [a], by simp⟩
  | add P Q hP hQ =>
    obtain ⟨p, rfl⟩ := hP
    obtain ⟨q, rfl⟩ := hQ
    exact ⟨p + q, horner_add p q⟩
  | mul_X P i hP =>
    obtain ⟨p, rfl⟩ := hP
    refine ⟨p.mulTerm 1 1, ?_⟩
    show horner (p.mulTerm 1 1).coefficients = _
    rw [horner_mulTerm, Fin.eq_zero i, map_one, one_mul, pow_one, mul_comm]

end Trimmed

end PolyIdeal.Univariate
