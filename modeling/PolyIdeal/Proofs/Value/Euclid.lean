import PolyIdeal.Proofs.Value.OneDomain
import PolyIdeal.Proofs.Value.ResidueClass
import PolyIdeal.Value.Euclid

/-!
# Euclidean algorithms on values

On the elements of a ring with an exact division, greatest common divisors and least common multiples
are found whatever the arguments are. Inverses modulo an element are found just for what is coprime
to it, where the modulus is the one argument that is not converted before a remainder is taken: it
has to be an operand, and it must not be zero.
-/

namespace PolyIdeal.Ring

open PolyIdeal.Euclidean LawfulEuclidean

variable {A : Ring}

section Divisors

/-- The sign of an integer. Other elements have none. -/
def sign? : (A : Ring) → A.Elem → Option ℤ
  | .domain .integers, (a : ℤ) => some a.sign
  | _, _ => none

private theorem sign?_of_extendedGcd (hA : A.IsExact) {a b : A.Elem} {d : Combination A.Elem}
    (hd : Euclidean.extendedGcd a b = .ok d) :
    A.sign? d.value = if isZero b then A.sign? a else A.sign? b := by
  cases hA with
  | integers =>
    have hsign := sign_of_extendedGcd (a := a) (b := b) hd
    exact (congrArg some hsign).trans (apply_ite some _ _ _)
  | polynomials K => exact (ite_self none).symm

/-- Euclid's algorithm ends with a greatest common divisor, its cofactors and, among integers, the
sign of the second argument unless that is zero. -/
theorem extendedGcd_spec (hA : A.IsExact) (a b : A.Elem)
    (hab : isZero a = false ∨ isZero b = false) :
    ∃ r s g, A.extendedGcd (.ofRingElement a) (.ofRingElement b) =
        .ok ([r, s, g].map .ofRingElement) ∧
      g = r * a + s * b ∧ IsGcd g a b ∧
      A.sign? g = if isZero b then A.sign? a else A.sign? b := by
  obtain ⟨S, _, ⟨_⟩⟩ := hA.exists_lawful
  obtain ⟨d, hd, hrepresents, hspan⟩ := Euclidean.extendedGcd_ok hab
  refine ⟨d.r, d.s, d.value, ?_, ?_, isGcd_of_span hspan, sign?_of_extendedGcd hA hd⟩
  · rw [extendedGcd, hA.convert_ofRingElement, hA.convert_ofRingElement]
    simp only [bind, Except.bind, hd]
    rfl
  · apply (denote_bijective (E := A.Elem)).injective
    rw [denote_add, denote_mul, denote_mul]
    exact hrepresents

open Univariate in
theorem extendedGcd_spec_cases :
    (∃ r s g : ℤ, (domain .integers).extendedGcd (.number (.integer (-12))) (.number (.integer 8)) =
        .ok [.number (.integer r), .number (.integer s), .number (.integer g)] ∧
      g = r * -12 + s * 8 ∧ IsGcd g (-12) 8 ∧ some g.sign = some 1) ∧
    ∃ r s g : Univariate ℚ, (polynomials .rationals).extendedGcd
        (.ofPolynomial (D := .rationals) (.univariate (ofCoefficients [(-1 : ℚ), 0, 1])))
        (.ofPolynomial (D := .rationals) (.univariate (ofCoefficients [(2 : ℚ), 2]))) =
        .ok ([r, s, g].map fun p => .ofPolynomial (D := .rationals) (.univariate p)) ∧
      g = r * ofCoefficients [-1, 0, 1] + s * ofCoefficients [2, 2] ∧
      IsGcd g (ofCoefficients [-1, 0, 1]) (ofCoefficients [2, 2]) ∧
      (polynomials .rationals).sign? g = none :=
  ⟨extendedGcd_spec .integers (-12 : ℤ) (8 : ℤ) (.inl rfl),
    extendedGcd_spec (.polynomials .rationals) (ofCoefficients [(-1 : ℚ), 0, 1])
      (ofCoefficients [(2 : ℚ), 2]) (.inl rfl)⟩

/-- The product of arguments other than zero is that of a least common multiple and the greatest
common divisor that is found. -/
theorem lcm_spec (hA : A.IsExact) (a b : A.Elem) :
    (isZero a = true ∨ isZero b = true →
      A.lcm (.ofRingElement a) (.ofRingElement b) = .ok (.ofRingElement (0 : A.Elem))) ∧
    (isZero a = false → isZero b = false → ∃ l g : A.Elem,
      A.lcm (.ofRingElement a) (.ofRingElement b) = .ok (.ofRingElement l) ∧
      A.gcd (.ofRingElement a) (.ofRingElement b) = .ok (.ofRingElement g) ∧
      l * g = a * b ∧ IsLcm l a b) := by
  obtain ⟨S, _, ⟨_⟩⟩ := hA.exists_lawful
  rw [lcm, gcd, hA.convert_ofRingElement, hA.convert_ofRingElement]
  simp only [bind, Except.bind]
  constructor
  · intro hzero
    rw [Euclidean.lcm, if_pos (Bool.or_eq_true_iff.mpr hzero)]
    rfl
  · intro ha hb
    obtain ⟨l, g, hl, hg, hmul, hlcm⟩ := lcm_ok ha hb
    refine ⟨l, g, ?_, ?_, hmul, hlcm⟩
    · rw [hl]
      rfl
    · rw [hg]
      rfl

open Univariate in
theorem lcm_spec_cases :
    (∃ l g : ℤ, (domain .integers).lcm (.number (.integer (-4))) (.number (.integer 6)) =
        .ok (.number (.integer l)) ∧
      (domain .integers).gcd (.number (.integer (-4))) (.number (.integer 6)) =
        .ok (.number (.integer g)) ∧
      l * g = -4 * 6 ∧ IsLcm l (-4) 6) ∧
    (polynomials .rationals).lcm
        (.ofPolynomial (D := .rationals) (.univariate (ofCoefficients [(0 : ℚ), 2])))
        (.ofPolynomial (D := .rationals) (.univariate 0)) =
      .ok (.ofPolynomial (D := .rationals) (.univariate 0)) :=
  ⟨(lcm_spec .integers (-4 : ℤ) (6 : ℤ)).2 rfl rfl,
    (lcm_spec (.polynomials .rationals) (ofCoefficients [(0 : ℚ), 2]) 0).1 (.inr rfl)⟩

end Divisors

section Operands

/-- Whether remainders by a value are those by the element that it stands for. Elements are operands,
and constants are operands of polynomials; lists of coefficients and polynomials over another domain
are not. -/
def isOperand : Ring → Value → Bool
  | .domain .integers, .number (.integer _) => true
  | .polynomials K, .polynomial p => p.domain = K
  | .polynomials _, .number _ => true
  | _, _ => false

def divisionByZero : Ring → Failure
  | .domain _ => .zeroDivision
  | .polynomials _ => .arithmetic (.divisionBy "0")

private theorem rem_zero (hA : A.IsExact) (c : A.Elem) {m : A.Elem} (hm : isZero m = true) :
    rem c m = .error A.divisionByZero := by
  cases hA with
  | integers => exact if_pos (beq_iff_eq.mp hm)
  | polynomials K =>
    obtain ⟨coefficients, trimmed⟩ := m
    obtain rfl := List.isEmpty_iff.mp hm
    rfl

section Polynomials

variable {K : Domain} {v : Value} {m : Univariate K.Elem}

private theorem convert_number {s : Scalar} (h : (polynomials K).convert (.number s) = .ok m) :
    ∃ c, Coefficient.ofScalar? (R := K.Elem) s = some c ∧ Univariate.ofCoefficients [c] = m := by
  have hconvert : (polynomials K).convert (.number s) =
      Univariate.fromCoefficients [some s] := rfl
  rw [hconvert, Univariate.fromCoefficients, convertAll] at h
  cases hs : Coefficient.ofScalar? (R := K.Elem) s with
  | none =>
    simp only [List.mapM_cons, Option.bind_some, hs, Option.bind_eq_bind, Option.bind_none] at h
    cases h
  | some c =>
    simp only [List.mapM_cons, List.mapM_nil, Option.bind_some, hs, Option.bind_eq_bind] at h
    exact ⟨c, rfl, Except.ok.inj h⟩

open FieldDomain in
private theorem univariateOperand_ok [FieldDomain K] (f : Univariate K.Elem)
    (hv : (polynomials K).convert v = .ok m) (hop : (polynomials K).isOperand v = true) :
    Value.univariateOperand f v = .ok m := by
  cases v with
  | polynomial p =>
    obtain ⟨D, p⟩ := p
    obtain rfl : D = K := of_decide_eq_true hop
    cases p with
    | univariate p =>
      obtain rfl : p = m := Except.ok.inj ((dif_pos rfl).symm.trans hv)
      have hoperand : AnyPolynomial.operand ⟨D, .univariate f⟩ ⟨D, .univariate p⟩ =
          .ok (.univariate p) := AnyPolynomial.operand_ok rfl
      rw [Value.univariateOperand]
      simp only [hoperand]
      rfl
    | multinomial p => cases hv
  | number s =>
    obtain ⟨c, hs, rfl⟩ := convert_number hv
    have hconstant : (Polynomial.univariate f).constantLike c =
        .univariate (Univariate.ofCoefficients [c]) := by
      show Polynomial.univariate (Univariate.ofCoefficients [0 + c]) = _
      rw [zero_add]
    simp only [Value.univariateOperand, Value.number?, Option.bind_some, hs, hconstant]
    rfl
  | _ => cases hop

private theorem univariateOperand_error (f : Univariate K.Elem)
    (hv : (polynomials K).convert v = .ok m) (hop : (polynomials K).isOperand v = false) :
    ∃ e, Value.univariateOperand f v = .error e ∧ ∀ cause, e ≠ .arithmetic cause := by
  cases v with
  | polynomial p =>
    obtain ⟨D, p⟩ := p
    have hne : D ≠ K := of_decide_eq_false hop
    cases p with
    | univariate p =>
      refine ⟨.invalid (.differentDomains K.text D.text), ?_, by simp⟩
      have hoperand : AnyPolynomial.operand ⟨K, .univariate f⟩ ⟨D, .univariate p⟩ =
          .error (.invalid (.differentDomains K.text D.text)) := by
        rw [AnyPolynomial.operand, AnyPolynomial.inDomain?, dif_neg hne]
        rfl
      rw [Value.univariateOperand]
      simp only [hoperand]
      rfl
    | multinomial p => cases hv
  | list vs => exact ⟨.noSuchOperation, rfl, by simp⟩
  | number s => cases hop
  | _ => cases hv

private theorem remainderBy_polynomials (c : Univariate K.Elem) (v : Value) :
    (polynomials K).remainderBy c v =
      (Value.univariateOperand c v).bind fun m =>
        (c.modulo m).map fun r => .ofPolynomial (.univariate r) := by
  show (Value.divMod .noSuchOperation (.ofPolynomial (.univariate c)) v).map Prod.snd = _
  have hpair : Value.univariatePair .noSuchOperation (.ofPolynomial (.univariate c)) v =
      (Value.univariateOperand c v).bind fun m => .ok ⟨K, c, m⟩ := rfl
  rw [Value.divMod, hpair]
  cases Value.univariateOperand c v with
  | error e => rfl
  | ok m =>
    simp only [bind, Except.bind, Univariate.modulo]
    cases c.divMod m <;> rfl

end Polynomials

variable {v : Value} {m : A.Elem}

private theorem remainderBy_operand (hA : A.IsExact) (c : A.Elem) (hv : A.convert v = .ok m)
    (hop : A.isOperand v = true) :
    A.remainderBy c v = (rem c m).map .ofRingElement := by
  cases hA with
  | integers =>
    match v, hop with
    | .number (.integer n), _ =>
      obtain rfl : n = m := Except.ok.inj hv
      rfl
  | polynomials K =>
    rw [remainderBy_polynomials, univariateOperand_ok c hv hop]
    rfl

private theorem remainderBy_of_not_operand (hA : A.IsExact) (c : A.Elem) (hv : A.convert v = .ok m)
    (hop : A.isOperand v = false) :
    (∀ r : A.Elem, A.remainderBy c v ≠ .ok (.ofRingElement r)) ∧
      ∀ cause, A.remainderBy c v ≠ .error (.arithmetic cause) := by
  cases hA with
  | integers =>
    cases v with
    | number s =>
      cases s with
      | integer n => cases hop
      | residue n r =>
        have hremainder : (domain .integers).remainderBy c (.number (.residue n r)) =
            (rem (E := ℤ) c r.val).map fun s => .number (.residue n (Residue.ofInt n s)) := rfl
        rw [hremainder]
        by_cases hr : (r.val : ℤ) = 0
        · rw [show rem (E := ℤ) c r.val = .error .zeroDivision from if_pos hr]
          exact ⟨fun _ => nofun, fun _ => nofun⟩
        · rw [show rem (E := ℤ) c r.val = .ok (Int.fmod c r.val) from if_neg hr]
          exact ⟨fun _ => nofun, fun _ => nofun⟩
      | _ => exact ⟨fun _ => nofun, fun _ => nofun⟩
    | _ => cases hv
  | polynomials K =>
    obtain ⟨e, hoperand, he⟩ := univariateOperand_error c hv hop
    rw [remainderBy_polynomials, hoperand]
    exact ⟨fun _ => nofun, fun cause h => he cause (Except.error.inj h)⟩

end Operands

section Inverses

variable {v w : Value} {a m : A.Elem} (hv : A.convert v = .ok a) (hw : A.convert w = .ok m)
include hv hw

private theorem inverseMod_of_coprime (hA : A.IsExact) (h : Coprime a m) :
    ∃ c, A.inverseMod v w = A.remainderBy c w ∧ Congruent (c * a) 1 m := by
  obtain ⟨S, _, ⟨_⟩⟩ := hA.exists_lawful
  obtain ⟨c, hcofactor, hc⟩ := unitCofactor_of_isCoprime (coprime_iff.mp h) v.shown w.shown
  refine ⟨c, ?_, ?_⟩
  · rw [inverseMod, hv, hw]
    simp only [bind, Except.bind, hcofactor]
  · rw [congruent_iff, denote_mul, denote_one]
    exact dvd_sub_comm.mp hc

private theorem inverseMod_of_not_coprime (hA : A.IsExact) (h : ¬ Coprime a m) :
    ∃ cause, A.inverseMod v w = .error (.arithmetic cause) := by
  obtain ⟨S, _, ⟨_⟩⟩ := hA.exists_lawful
  obtain ⟨cause, hcofactor⟩ :=
    unitCofactor_of_not_isCoprime (mt coprime_iff.mpr h) v.shown w.shown
  refine ⟨cause, ?_⟩
  rw [inverseMod, hv, hw]
  simp only [bind, Except.bind, hcofactor]

/-- Modulo an operand other than zero the inverses of what is coprime to it are found. Zero is
refused as a divisor, and what is no operand is not taken as the element that it stands for. -/
theorem inverseMod_spec (hA : A.IsExact) :
    (¬ Coprime a m → ∃ cause, A.inverseMod v w = .error (.arithmetic cause)) ∧
    (Coprime a m → A.isOperand w = true → isZero m = false →
      ∃ c : A.Elem, A.inverseMod v w = .ok (.ofRingElement c) ∧ Congruent (c * a) 1 m) ∧
    (Coprime a m → A.isOperand w = true → isZero m = true →
      A.inverseMod v w = .error A.divisionByZero) ∧
    (Coprime a m → A.isOperand w = false →
      (∀ c : A.Elem, A.inverseMod v w ≠ .ok (.ofRingElement c)) ∧
      ∀ cause, A.inverseMod v w ≠ .error (.arithmetic cause)) := by
  obtain ⟨S, _, ⟨_⟩⟩ := hA.exists_lawful
  refine ⟨inverseMod_of_not_coprime hv hw hA, ?_, ?_, ?_⟩
  · intro h hop hm
    obtain ⟨c, hinverse, hc⟩ := inverseMod_of_coprime hv hw hA h
    obtain ⟨r, hrem, hr⟩ := rem_ok c m hm
    refine ⟨r, ?_, ?_⟩
    · rw [hinverse, remainderBy_operand hA c hw hop, hrem]
      rfl
    · have hrc : Congruent r c m := congruent_iff.mpr (dvd_sub_comm.mp hr)
      have hmul : Congruent (r * a) (c * a) m :=
        Operator.mul.apply_congruent hrc (congruent_refl a m)
      rw [congruent_iff_quotientBy] at hmul hc ⊢
      exact hmul.trans hc
  · intro h hop hm
    obtain ⟨c, hinverse, -⟩ := inverseMod_of_coprime hv hw hA h
    rw [hinverse, remainderBy_operand hA c hw hop, rem_zero hA c hm]
    rfl
  · intro h hop
    obtain ⟨c, hinverse, -⟩ := inverseMod_of_coprime hv hw hA h
    rw [hinverse]
    exact remainderBy_of_not_operand hA c hw hop

end Inverses

open Univariate in
/-- Modulo -5 and 6, and over the rationals `X`, given by its coefficients, modulo `X ^ 2 + 1`. -/
theorem inverseMod_spec_cases :
    (∃ c : ℤ, (domain .integers).inverseMod (.number (.integer 2)) (.number (.integer (-5))) =
      .ok (.number (.integer c)) ∧ Congruent (c * 2) 1 (-5)) ∧
    (∃ cause, (domain .integers).inverseMod (.number (.integer 4)) (.number (.integer 6)) =
      .error (.arithmetic cause)) ∧
    ∃ c : Univariate ℚ, (polynomials .rationals).inverseMod
        (.list [.number (.integer 0), .number (.integer 1)])
        (.ofPolynomial (D := .rationals) (.univariate (ofCoefficients [(1 : ℚ), 0, 1]))) =
      .ok (.ofPolynomial (D := .rationals) (.univariate c)) ∧
      Congruent (c * ofCoefficients [0, 1]) 1 (ofCoefficients [1, 0, 1]) := by
  have heven : ∀ r s : ℤ, r * 4 + s * 6 ≠ 1 := by omega
  refine ⟨?_, ?_, ?_⟩
  · exact (inverseMod_spec (A := .domain .integers) (a := (2 : ℤ)) (m := (-5 : ℤ)) rfl rfl
      .integers).2.1 ⟨(3 : ℤ), (1 : ℤ), rfl⟩ rfl rfl
  · apply (inverseMod_spec (A := .domain .integers) (a := (4 : ℤ)) (m := (6 : ℤ)) rfl rfl
      .integers).1
    rintro ⟨r, s, hrs⟩
    exact heven r s hrs
  · exact (inverseMod_spec (A := .polynomials .rationals) (a := ofCoefficients [(0 : ℚ), 1])
      (m := ofCoefficients [(1 : ℚ), 0, 1]) rfl rfl (.polynomials .rationals)).2.1
      ⟨ofCoefficients [(0 : ℚ), -1], ofCoefficients [(1 : ℚ)], by decide +kernel⟩ rfl rfl

open Univariate in
/-- Coprime arguments without an inverse: one modulo zero, and over the rationals `X` modulo `X - 1`,
given by its coefficients. -/
theorem inverseMod_refuses_coprime :
    (Coprime (1 : ℤ) 0 ∧
      (domain .integers).inverseMod (.number (.integer 1)) (.number (.integer 0)) =
        .error .zeroDivision) ∧
    (polynomials .rationals).convert (.list [.number (.integer (-1)), .number (.integer 1)]) =
        .ok (ofCoefficients [(-1 : ℚ), 1]) ∧
      Coprime (ofCoefficients [(0 : ℚ), 1]) (ofCoefficients [(-1 : ℚ), 1]) ∧
      (polynomials .rationals).inverseMod
          (.ofPolynomial (D := .rationals) (.univariate (ofCoefficients [(0 : ℚ), 1])))
          (.list [.number (.integer (-1)), .number (.integer 1)]) =
        .error .noSuchOperation := by
  have hcoprime : Coprime (ofCoefficients [(0 : ℚ), 1]) (ofCoefficients [(-1 : ℚ), 1]) :=
    ⟨ofCoefficients [1], ofCoefficients [-1], by decide +kernel⟩
  refine ⟨⟨⟨1, 0, rfl⟩, rfl⟩, rfl, hcoprime, ?_⟩
  obtain ⟨c, hinverse, -⟩ := inverseMod_of_coprime (A := .polynomials .rationals)
    (v := .ofPolynomial (D := .rationals) (.univariate (ofCoefficients [(0 : ℚ), 1])))
    (w := .list [.number (.integer (-1)), .number (.integer 1)]) rfl rfl
    (.polynomials .rationals) hcoprime
  rw [hinverse, remainderBy_polynomials]
  rfl

end PolyIdeal.Ring
