import PolyIdeal.Polynomial.Conversion
import PolyIdeal.Proofs.Polynomial.Evaluation
import PolyIdeal.Proofs.Univariate.Division

/-!
# Evaluation as a homomorphism

The value at a point respects all operations, since it is the value of the polynomial that is meant.
Over a field the value at `a` is also what division by `X - a` leaves.
-/

namespace PolyIdeal

open Monomial

variable {R : Type} [CommRing R] [DecidableEq R]

namespace Polynomial

/-- The value at a point of what an operation on polynomials returns is the operation on their
values. -/
structure EvaluationHom (point : List R) : Prop where
  evaluates : ∀ f : Polynomial R, f.nvars = point.length → ∃ a, f.evaluateAt point = .ok a
  add : ∀ (f g : Polynomial R) (a b : R), f.evaluateAt point = .ok a →
    g.evaluateAt point = .ok b → ∃ h, f.add g = .ok h ∧ h.evaluateAt point = .ok (a + b)
  sub : ∀ (f g : Polynomial R) (a b : R), f.evaluateAt point = .ok a →
    g.evaluateAt point = .ok b → ∃ h, f.sub g = .ok h ∧ h.evaluateAt point = .ok (a - b)
  mul : ∀ (f g : Polynomial R) (a b : R), f.evaluateAt point = .ok a →
    g.evaluateAt point = .ok b → ∃ h, f.mul g = .ok h ∧ h.evaluateAt point = .ok (a * b)
  neg : ∀ (f : Polynomial R) (a : R), f.evaluateAt point = .ok a →
    (-f).evaluateAt point = .ok (-a)
  scale : ∀ (f : Polynomial R) (a c : R), f.evaluateAt point = .ok a →
    (f.scale c).evaluateAt point = .ok (c * a)
  mulTerm : ∀ (f : Polynomial R) (a : R) (u : Monomial) (c : R), f.evaluateAt point = .ok a →
    u.length = point.length → ∃ h, f.mulTerm u c = .ok h ∧
      h.evaluateAt point = .ok (c * (List.zipWith (· ^ ·) point u).prod * a)
  power : ∀ (f : Polynomial R) (a : R) (k : ℕ), f.evaluateAt point = .ok a →
    (f.power k).evaluateAt point = .ok (a ^ k)

variable {p : Polynomial R} {point : List R} {a : R}

theorem evaluateAt_ofFn {n : ℕ} (hp : p.nvars = n) (x : Fin n → R) :
    p.evaluateAt (List.ofFn x) = .ok (MvPolynomial.eval x (p.denote n)) := by
  rw [← evaluate_eq hp]
  cases p with
  | univariate p =>
    obtain rfl : n = 1 := hp.symm
    rfl
  | multinomial p =>
    have hlen : (List.ofFn x).length = p.nvars := List.length_ofFn.trans hp.symm
    exact if_pos hlen

theorem evaluateAt_ok (hp : p.nvars = point.length) :
    p.evaluateAt point = .ok (MvPolynomial.eval point.get (p.denote point.length)) := by
  have heval := evaluateAt_ofFn hp point.get
  rwa [List.ofFn_get] at heval

private theorem nvars_of_evaluateAt (h : p.evaluateAt point = .ok a) : p.nvars = point.length := by
  cases p with
  | univariate p =>
    match point, h with
    | [x], _ => rfl
  | multinomial p =>
    by_contra hne
    have herror : (multinomial p).evaluateAt point =
        .error (.invalid (.pointLength p.nvars point.length)) := if_neg (Ne.symm hne)
    rw [herror] at h
    cases h

private theorem evaluateAt_eq_ok_iff : p.evaluateAt point = .ok a ↔
    p.nvars = point.length ∧ MvPolynomial.eval point.get (p.denote point.length) = a := by
  constructor
  · intro h
    have hp := nvars_of_evaluateAt h
    exact ⟨hp, Except.ok.inj ((evaluateAt_ok hp).symm.trans h)⟩
  · rintro ⟨hp, rfl⟩
    exact evaluateAt_ok hp

omit [DecidableEq R] in
private theorem prod_zipWith_pow (point : List R) (d : Fin point.length →₀ ℕ) :
    (List.zipWith (· ^ ·) point (ofExponents d)).prod = d.prod fun i k => point.get i ^ k := by
  have hpowers : List.zipWith (· ^ ·) point (ofExponents d) =
      List.ofFn fun i => point.get i ^ d i := by
    apply List.ext_getElem <;> simp [ofExponents]
  rw [hpowers, List.prod_ofFn, Finsupp.prod_fintype _ _ fun i => pow_zero (point.get i)]

private theorem evaluationHom_point (point : List R) : EvaluationHom point where
  evaluates f hf := ⟨_, evaluateAt_ok hf⟩
  add f g a b hf hg := by
    obtain ⟨hfn, rfl⟩ := evaluateAt_eq_ok_iff.mp hf
    obtain ⟨hgn, rfl⟩ := evaluateAt_eq_ok_iff.mp hg
    obtain ⟨h, hok, hn, hd⟩ := add_ok hfn hgn
    exact ⟨h, hok, evaluateAt_eq_ok_iff.mpr ⟨hn, by rw [hd, map_add]⟩⟩
  sub f g a b hf hg := by
    obtain ⟨hfn, rfl⟩ := evaluateAt_eq_ok_iff.mp hf
    obtain ⟨hgn, rfl⟩ := evaluateAt_eq_ok_iff.mp hg
    obtain ⟨h, hok, hn, hd⟩ := sub_ok hfn hgn
    exact ⟨h, hok, evaluateAt_eq_ok_iff.mpr ⟨hn, by rw [hd, map_sub]⟩⟩
  mul f g a b hf hg := by
    obtain ⟨hfn, rfl⟩ := evaluateAt_eq_ok_iff.mp hf
    obtain ⟨hgn, rfl⟩ := evaluateAt_eq_ok_iff.mp hg
    obtain ⟨h, hok, hn, hd⟩ := mul_ok hfn hgn
    exact ⟨h, hok, evaluateAt_eq_ok_iff.mpr ⟨hn, by rw [hd, map_mul]⟩⟩
  neg f a hf := by
    obtain ⟨hfn, rfl⟩ := evaluateAt_eq_ok_iff.mp hf
    obtain ⟨hn, hd⟩ := neg_spec hfn
    exact evaluateAt_eq_ok_iff.mpr ⟨hn, by rw [hd, map_neg]⟩
  scale f a c hf := by
    obtain ⟨hfn, rfl⟩ := evaluateAt_eq_ok_iff.mp hf
    obtain ⟨hn, hd⟩ := scale_spec hfn c
    exact evaluateAt_eq_ok_iff.mpr ⟨hn, by rw [hd, map_mul, MvPolynomial.eval_C]⟩
  mulTerm f a u c hf hu := by
    obtain ⟨hfn, rfl⟩ := evaluateAt_eq_ok_iff.mp hf
    obtain ⟨d, rfl⟩ := exists_ofExponents hu
    obtain ⟨h, hok, hn, hd⟩ := mulTerm_ok hfn d c
    refine ⟨h, hok, evaluateAt_eq_ok_iff.mpr ⟨hn, ?_⟩⟩
    rw [hd, map_mul, MvPolynomial.eval_monomial, prod_zipWith_pow]
  power f a k hf := by
    obtain ⟨hfn, rfl⟩ := evaluateAt_eq_ok_iff.mp hf
    obtain ⟨hn, hd⟩ := power_spec hfn k
    exact evaluateAt_eq_ok_iff.mpr ⟨hn, by rw [hd, map_pow]⟩

end Polynomial

namespace Univariate

omit [DecidableEq R] in
private theorem evaluate_eq_eval (f : Univariate R) (a : R) :
    f.evaluate a = MvPolynomial.eval (fun _ => a) (horner f.coefficients) :=
  (Polynomial.eval_horner f.coefficients fun _ => a).symm

private theorem eq_constant_of_size_lt {r : Univariate R} (hr : r.size < 2) (a : R) :
    r = ofCoefficients [r.evaluate a] := by
  have hzero : r.evaluate a = r.coefficient 0 := by
    match r, hr with
    | ⟨[], _⟩, _ => rfl
    | ⟨[c], _⟩, _ => exact (congrArg (· + c) (zero_mul a)).trans (zero_add c)
  refine ext_coefficient fun i => ?_
  rw [hzero, coefficient_ofCoefficients]
  cases i with
  | zero => rfl
  | succ i => exact size_le_iff.mp (Nat.le_of_lt_succ hr) (i + 1) (by omega)

variable [Coefficient R] [FieldCoefficient R]

private theorem modulo_eq_evaluate (f : Univariate R) (a : R) :
    f.modulo (ofCoefficients [-a, 1]) = .ok (ofCoefficients [f.evaluate a]) := by
  have hcoefficients : (ofCoefficients [-a, 1] : Univariate R).coefficients = [-a, 1] := by
    simp [ofCoefficients, trimZeros]
  have hzero : (ofCoefficients [-a, 1] : Univariate R).isZero = false := by
    rw [isZero, hcoefficients]
    rfl
  obtain ⟨q, r, hdivide, hsize, hsum⟩ := divMod_ok f hzero
  rw [size, size, hcoefficients] at hsize
  have hvalue : f.evaluate a = r.evaluate a := by
    rw [evaluate_eq_eval, evaluate_eq_eval, hsum, hcoefficients, map_add, map_mul,
      Polynomial.eval_horner [-a, 1]]
    simp
  rw [modulo, hdivide, hvalue, ← eq_constant_of_size_lt hsize a]
  rfl

end Univariate

/-- Evaluation at any point is a homomorphism, and over a field a remainder. -/
theorem evaluationHom [Coefficient R] : (∀ point : List R, Polynomial.EvaluationHom point) ∧
    ∀ [FieldCoefficient R] (f : Univariate R) (a : R),
      f.modulo (.ofCoefficients [-a, 1]) = .ok (.ofCoefficients [f.evaluate a]) :=
  ⟨Polynomial.evaluationHom_point, Univariate.modulo_eq_evaluate⟩

theorem evaluationHom_residues : (∀ point : List (Residue 3), Polynomial.EvaluationHom point) ∧
    ∀ (f : Univariate (Residue 3)) (a : Residue 3),
      f.modulo (.ofCoefficients [-a, 1]) = .ok (.ofCoefficients [f.evaluate a]) :=
  ⟨evaluationHom.1, evaluationHom.2⟩

end PolyIdeal
