import PolyIdeal.Proofs.Basis.Twins
import PolyIdeal.Proofs.Polynomial.Conversion
import PolyIdeal.Value.Evaluation

/-!
# What polynomials in one variable refuse

Whether a polynomial in one variable is kept as a coefficient list or as a tensor with one axis, it
refuses the same arguments and finds the same fault first. But the two report some faults by failures
of different kinds: a tensor calls a factor or a point of a wrong length an invalid argument, and also
terms with a coefficient without a counterpart, where a list calls the former a bad value and hands
on what the conversion reports for the latter.
-/

namespace PolyIdeal

open PolyIdeal.Polynomial

/-- What is wrong with terms for polynomials in one variable: a negative exponent, exponents of other
variables, or a coefficient without a counterpart. -/
inductive Fault
  | negative (exponents : List ℤ)
  | arity (exponents : List ℤ)
  | foreign

namespace Fault

/-- The fault that is found first: all exponents are looked at before their number, and these before
the coefficients. -/
def find? (R : Type) [Coefficient R] (terms : List RawTerm) : Option Fault :=
  match terms.find? fun t => !t.1.all (0 ≤ ·) with
  | some t => some (negative t.1)
  | none =>
    match terms.find? fun t => t.1.length ≠ 1 with
    | some t => some (arity t.1)
    | none =>
      (terms.find? fun t => (t.2.bind (Coefficient.ofScalar? (R := R))).isNone).map fun _ => foreign

/-- How a coefficient list reports a fault of the term that it is to be multiplied by. -/
def inFactor : Fault → Failure
  | negative exponents => .invalid (.negativeExponents exponents)
  | arity _ => .badValue
  | foreign => .noConversion

/-- How a tensor does. -/
def inFactorOfTensor : Fault → Failure
  | negative exponents => .invalid (.negativeExponents exponents)
  | arity exponents => .invalid (.arities exponents [0])
  | foreign => .noConversion

/-- How the fault of some terms is reported when a coefficient list is made of them. -/
def inTerms (terms : List RawTerm) : Fault → Failure
  | negative exponents => .invalid (.negativeExponents exponents)
  | arity _ => .invalid (.notUnivariate (terms.map Prod.fst))
  | foreign => .noConversion

/-- How it is when a tensor with coefficients in `R` is made of them. -/
def inTermsOfTensor (R : Type) [Coefficient R] : Fault → Failure
  | negative exponents => .invalid (.negativeExponents exponents)
  | arity exponents => .invalid (.monomialArity exponents 1)
  | foreign => .invalid (.foreignCoefficients (Coefficient.domain R).text)

/-- Two operations that both succeed if there is no fault, and else report it each in its way. -/
def Correspond {α β : Type} (fault? : Option Fault) (report report' : Fault → Failure)
    (x : Except Failure α) (y : Except Failure β) : Prop :=
  match fault? with
  | none => x.isOk = true ∧ y.isOk = true
  | some fault => x = .error (report fault) ∧ y = .error (report' fault)

section Terms

variable {R : Type} [Zero R] [DecidableEq R] [Coefficient R] {terms : List RawTerm}

omit [Zero R] [DecidableEq R] in
private theorem ofOperand?_isOk {v : Option Scalar}
    (h : (v.bind (Coefficient.ofScalar? (R := R))).isSome = true) :
    ∃ c : R, Coefficient.ofOperand? v = .ok c := by
  obtain ⟨c, hc⟩ := Option.isSome_iff_exists.mp h
  exact ⟨c, by rw [Coefficient.ofOperand?, hc]⟩

variable [Add R]

private theorem fromTerms_of_negative {t : RawTerm}
    (h : (terms.find? fun t => !t.1.all (0 ≤ ·)) = some t) :
    Univariate.fromTerms (R := R) terms 1 = .error (.invalid (.negativeExponents t.1)) ∧
      Multinomial.fromTerms (R := R) terms 1 = .error (.invalid (.negativeExponents t.1)) := by
  obtain ⟨ht, before, after, rfl, hbefore⟩ := List.find?_eq_some_iff_append.mp h
  have hms : (before ++ t :: after).mapM (fun t => Monomial.ofInts? t.1) =
      .error (.invalid (.negativeExponents t.1)) := by
    refine mapM_error (fun s hs => ?_) ?_
    · exact ⟨_, if_pos (by simpa using hbefore s hs)⟩
    · exact if_neg (by simpa using ht)
  constructor
  · rw [Univariate.fromTerms, hms]
    rfl
  · rw [Multinomial.fromTerms, hms]
    rfl

section Nonnegative

variable (hnonneg : ∀ t ∈ terms, t.1.all (0 ≤ ·) = true)
include hnonneg

private theorem ofInts?_of_nonneg : ∀ t ∈ terms, Monomial.ofInts? t.1 = .ok (t.1.map Int.toNat) :=
  fun t ht => if_pos (hnonneg t ht)

private theorem fromTerms_of_arity {t : RawTerm}
    (h : (terms.find? fun t => t.1.length ≠ 1) = some t) :
    Univariate.fromTerms (R := R) terms 1 =
        .error (.invalid (.notUnivariate (terms.map Prod.fst))) ∧
      Multinomial.fromTerms (R := R) terms 1 = .error (.invalid (.monomialArity t.1 1)) := by
  -- A list names all monomials, and a tensor the first one that does not fit.
  have hms := mapM_ok (ofInts?_of_nonneg hnonneg)
  obtain ⟨ht, before, after, rfl, hbefore⟩ := List.find?_eq_some_iff_append.mp h
  have ht : t.1.length ≠ 1 := of_decide_eq_true ht
  constructor
  · have hany : ((before ++ t :: after).map fun t => t.1.map Int.toNat).any
        (fun m => m.length ≠ 1) = true := by
      rw [List.any_eq_true]
      exact ⟨t.1.map Int.toNat, List.mem_map.mpr ⟨t, by simp, rfl⟩, by simpa using ht⟩
    rw [Univariate.fromTerms, hms]
    simp only [ne_eq, not_true_eq_false, if_false, bind, Except.bind, hany, if_true]
    rfl
  · have hcheck : ((before ++ t :: after).map fun t => t.1.map Int.toNat).forM
        (fun m : Monomial => if (m.length : ℤ) = 1 then (.ok () : Except Failure Unit)
          else .error (.invalid (.monomialArity m.toInts 1))) =
        .error (.invalid (.monomialArity t.1 1)) := by
      rw [List.map_append, List.map_cons]
      refine forM_error (fun m hm => ?_) ?_
      · obtain ⟨s, hs, rfl⟩ := List.mem_map.mp hm
        have hs : s.1.length = 1 := by simpa using hbefore s hs
        rw [List.length_map, hs]
        rfl
      · rw [List.length_map, if_neg (by exact_mod_cast ht),
          Monomial.toInts_map_toNat (hnonneg t (by simp))]
    rw [Multinomial.fromTerms, hms]
    simp only [bind, Except.bind, hcheck]

section Univariate

variable (hlength : ∀ t ∈ terms, t.1.length = 1)
include hlength

private theorem multinomial_fromTerms_eq :
    Multinomial.fromTerms (R := R) terms 1 =
      (convertAll (terms.map Prod.snd)
          (.invalid (.foreignCoefficients (Coefficient.domain R).text))).map fun cs =>
        Multinomial.ofTerms 1 Nat.one_pos ((terms.map fun t => t.1.map Int.toNat).zip cs) :=
  Multinomial.fromTerms_eq (ofInts?_of_nonneg hnonneg) Nat.one_pos hlength

private theorem fromTerms_of_foreign {t : RawTerm}
    (h : (terms.find? fun t => (t.2.bind (Coefficient.ofScalar? (R := R))).isNone) = some t) :
    Univariate.fromTerms (R := R) terms 1 = .error .noConversion ∧
      Multinomial.fromTerms (R := R) terms 1 =
        .error (.invalid (.foreignCoefficients (Coefficient.domain R).text)) := by
  rw [Univariate.fromTerms_eq (ofInts?_of_nonneg hnonneg) hlength,
    multinomial_fromTerms_eq hnonneg hlength]
  obtain ⟨ht, before, after, rfl, hbefore⟩ := List.find?_eq_some_iff_append.mp h
  have ht : t.2.bind (Coefficient.ofScalar? (R := R)) = none := Option.isNone_iff_eq_none.mp ht
  constructor
  · have hcs : (before ++ t :: after).mapM (fun t => Coefficient.ofOperand? (R := R) t.2) =
        .error .noConversion := by
      refine mapM_error (fun s hs => ofOperand?_isOk ?_) ?_
      · simpa [Option.isSome_iff_ne_none] using hbefore s hs
      · rw [Coefficient.ofOperand?, ht]
    rw [hcs]
    rfl
  · have hcs : ((before ++ t :: after).map Prod.snd).mapM
        (·.bind (Coefficient.ofScalar? (R := R))) = none := by
      rw [List.map_append, List.map_cons]
      exact mapM_none ht
    rw [convertAll, hcs]
    rfl

private theorem fromTerms_isOk
    (h : (terms.find? fun t => (t.2.bind (Coefficient.ofScalar? (R := R))).isNone) = none) :
    (Univariate.fromTerms (R := R) terms 1).isOk = true ∧
      (Multinomial.fromTerms (R := R) terms 1).isOk = true := by
  have hsome : ∀ t ∈ terms, (t.2.bind (Coefficient.ofScalar? (R := R))).isSome = true := by
    intro t ht
    simpa [Option.isSome_iff_ne_none] using List.find?_eq_none.mp h t ht
  rw [Univariate.fromTerms_eq (ofInts?_of_nonneg hnonneg) hlength,
    multinomial_fromTerms_eq hnonneg hlength]
  constructor
  · obtain ⟨cs, hcs⟩ := exists_mapM_ok fun t ht => ofOperand?_isOk (R := R) (hsome t ht)
    rw [hcs]
    rfl
  · have hcs : (terms.map Prod.snd).mapM (·.bind (Coefficient.ofScalar? (R := R))) =
        some ((terms.map Prod.snd).map fun v => (v.bind Coefficient.ofScalar?).getD 0) := by
      refine mapM_eq_pure fun v hv => ?_
      obtain ⟨t, ht, rfl⟩ := List.mem_map.mp hv
      obtain ⟨c, hc⟩ := Option.isSome_iff_exists.mp (hsome t ht)
      rw [hc]
      rfl
    rw [convertAll, hcs]
    rfl

end Univariate

end Nonnegative

variable (R) in
private theorem correspond_fromTerms (terms : List RawTerm) :
    Correspond (find? R terms) (inTerms terms) (inTermsOfTensor R)
      (Univariate.fromTerms (R := R) terms 1) (Multinomial.fromTerms (R := R) terms 1) := by
  rw [find?]
  split
  · rename_i t ht
    exact fromTerms_of_negative ht
  rename_i hnegative
  have hnonneg : ∀ t ∈ terms, t.1.all (0 ≤ ·) = true := by
    simpa only [Bool.not_eq_true, Bool.not_eq_false'] using List.find?_eq_none.mp hnegative
  split
  · rename_i t ht
    exact fromTerms_of_arity hnonneg ht
  rename_i harity
  have hlength : ∀ t ∈ terms, t.1.length = 1 := by
    simpa using List.find?_eq_none.mp harity
  cases hforeign : terms.find? fun t => (t.2.bind (Coefficient.ofScalar? (R := R))).isNone with
  | some t => exact fromTerms_of_foreign hnonneg hlength hforeign
  | none => exact fromTerms_isOk hnonneg hlength hforeign

end Terms

section Operations

variable {R : Type} [Coefficient R]

private theorem find?_singleton (exponents : List ℤ) (c : Option Scalar) :
    find? R [(exponents, c)] =
      if exponents.all (0 ≤ ·) then
        if exponents.length = 1 then
          if (c.bind (Coefficient.ofScalar? (R := R))).isSome then none else some foreign
        else some (arity exponents)
      else some (negative exponents) := by
  by_cases hnonneg : exponents.all (0 ≤ ·) = true
  · by_cases hlength : exponents.length = 1
    · cases hc : c.bind (Coefficient.ofScalar? (R := R)) <;>
        simp [find?, hnonneg, hlength, hc]
    · simp [find?, hnonneg, hlength]
  · simp [find?, hnonneg]

variable [Zero R] [DecidableEq R] {f : Univariate R} {F : Multinomial R}

omit [Coefficient R] in
private theorem coefficientAt_eq (h : f.IsTwin F) (exponents : List ℤ) :
    (univariate f).coefficientAt exponents = (multinomial F).coefficientAt exponents := by
  have halike := Univariate.isForm_iff.mp (.tensor h)
  have hcoefficient : (univariate f).coefficient = (multinomial F).coefficient :=
    funext halike.coefficient_eq
  rw [Polynomial.coefficientAt, Polynomial.coefficientAt, halike.nvars_eq, halike.nvars_eq',
    hcoefficient]

variable [Add R]

private theorem correspond_constantOf (f : Univariate R) (F : Multinomial R) (c : Option Scalar) :
    Correspond (find? R [([0], c)]) (inTerms [([0], c)]) (inTermsOfTensor R)
      ((univariate f).constantOf c) ((multinomial F).constantOf c) := by
  rw [find?_singleton]
  cases hc : c.bind (Coefficient.ofScalar? (R := R)) <;> simp only [Polynomial.constantOf, hc] <;>
    exact ⟨rfl, rfl⟩

variable [Mul R]

private theorem correspond_mulTermBy (h : f.IsTwin F) (exponents : List ℤ) (c : Option Scalar) :
    Correspond (find? R [(exponents, c)]) inFactor inFactorOfTensor
      ((univariate f).mulTermBy exponents c) ((multinomial F).mulTermBy exponents c) := by
  have hunit : (Monomial.unit F.nvars).toInts = [0] := by
    rw [h.nvars_eq]
    rfl
  rw [find?_singleton, Polynomial.mulTermBy, Polynomial.mulTermBy, Monomial.ofInts?]
  by_cases hnonneg : exponents.all (0 ≤ ·) = true
  · have hints := Monomial.toInts_map_toNat hnonneg
    rw [if_pos hnonneg, if_pos hnonneg]
    simp only [bind, Except.bind, Polynomial.checkMonomial, Monomial.checkArity, hints, hunit,
      List.length_map, List.length_singleton]
    by_cases hlength : exponents.length = 1
    · obtain ⟨i, rfl⟩ := List.length_eq_one_iff.mp hlength
      have hnvars : [i.toNat].length = F.nvars := h.nvars_eq.symm
      simp only [hlength, if_true, Coefficient.ofOperand?]
      cases hc : c.bind (Coefficient.ofScalar? (R := R)) with
      | none => exact ⟨rfl, rfl⟩
      | some c =>
        refine ⟨rfl, ?_⟩
        show (if h : [i.toNat].length = F.nvars then _ else _ : Except Failure _).isOk = true
        rw [dif_pos hnvars]
        rfl
    · simp only [hlength, if_false]
      exact ⟨rfl, rfl⟩
  · rw [if_neg hnonneg, if_neg hnonneg]
    exact ⟨rfl, rfl⟩

end Operations

end Fault

namespace AnyPolynomial

variable {D : Domain} {f : Univariate D.Elem} {F : Multinomial D.Elem} {xs : List Value}

private theorem evaluate_of_length_ne_one (h : f.IsTwin F) (hxs : xs.length ≠ 1) :
    (evaluate ⟨D, .univariate f⟩ (.list xs)).result = .error .badValue ∧
      (evaluate ⟨D, .multinomial F⟩ (.list xs)).result =
        .error (.invalid (.pointLength 1 xs.length)) := by
  have hlist : coordinates ⟨D, .univariate f⟩ (.list xs) = .ok xs := rfl
  have htensor : coordinates ⟨D, .multinomial F⟩ (.list xs) = .ok xs := rfl
  rw [evaluate, evaluate, Traced.result_lift_bind hlist, Traced.result_lift_bind htensor]
  dsimp only
  -- Coordinates in the domain and others take different ways to the same failure.
  cases hnative : xs.mapM (nativeCoordinate? D) with
  | none =>
    constructor
    · match xs, hxs with
      | [], _ => rfl
      | _ :: _ :: _, _ => rfl
    · dsimp only
      rw [h.nvars_eq, if_neg hxs]
      rfl
  | some cs =>
    have hcs := length_of_mapM_some hnative
    rw [← hcs] at hxs ⊢
    constructor <;> refine Traced.result_lift_bind_error ?_ _
    · match cs, hxs with
      | [], _ => rfl
      | _ :: _ :: _, _ => rfl
    · rw [Polynomial.evaluateAt, h.nvars_eq, if_neg hxs]

end AnyPolynomial

open Fault

/-- However polynomials in one variable are kept, they refuse the same arguments, for the same
fault. -/
structure SameRefusals (D : Domain) : Prop where
  fromTerms (terms : List RawTerm) :
    Correspond (find? D.Elem terms) (inTerms terms) (inTermsOfTensor D.Elem)
      (Univariate.fromTerms (R := D.Elem) terms 1) (Multinomial.fromTerms (R := D.Elem) terms 1)
  /-- A constant is made of the single term without variables. -/
  constantOf (f : Univariate D.Elem) (F : Multinomial D.Elem) (c : Option Scalar) :
    Correspond (find? D.Elem [([0], c)]) (inTerms [([0], c)]) (inTermsOfTensor D.Elem)
      ((univariate f).constantOf c) ((multinomial F).constantOf c)
  mulTermBy {f : Univariate D.Elem} {F : Multinomial D.Elem} (h : f.IsTwin F) (exponents : List ℤ)
      (c : Option Scalar) :
    Correspond (find? D.Elem [(exponents, c)]) inFactor inFactorOfTensor
      ((univariate f).mulTermBy exponents c) ((multinomial F).mulTermBy exponents c)
  coefficientAt_eq {f : Univariate D.Elem} {F : Multinomial D.Elem} (h : f.IsTwin F)
      (exponents : List ℤ) :
    (univariate f).coefficientAt exponents = (multinomial F).coefficientAt exponents
  /-- The coordinates need not be elements of the domain. -/
  evaluate {f : Univariate D.Elem} {F : Multinomial D.Elem} {xs : List Value} (h : f.IsTwin F)
      (hxs : xs.length ≠ 1) :
    (AnyPolynomial.evaluate ⟨D, univariate f⟩ (.list xs)).result = .error .badValue ∧
      (AnyPolynomial.evaluate ⟨D, multinomial F⟩ (.list xs)).result =
        .error (.invalid (.pointLength 1 xs.length))

/-- What a list and a tensor refuse is found in the same order; a wrong length of a factor or a point
and a coefficient without a counterpart among terms are reported in ways of their own. -/
theorem sameRefusals (D : Domain) : SameRefusals D where
  fromTerms := correspond_fromTerms D.Elem
  constantOf := correspond_constantOf
  mulTermBy := correspond_mulTermBy
  coefficientAt_eq := coefficientAt_eq
  evaluate := AnyPolynomial.evaluate_of_length_ne_one

/-- The kind of failure of an outcome. -/
def failureKind? {α : Type} : Except Failure α → Option ℕ
  | .ok _ => none
  | .error e => some e.ctorIdx

/-- What lists and tensors are said to do: to fail by failures of the same kind. -/
structure FailAlike (D : Domain) : Prop where
  fromTerms (terms : List RawTerm) :
    failureKind? (Univariate.fromTerms (R := D.Elem) terms 1) =
      failureKind? (Multinomial.fromTerms (R := D.Elem) terms 1)
  constantOf {f : Univariate D.Elem} {F : Multinomial D.Elem} (h : f.IsTwin F)
      (c : Option Scalar) :
    failureKind? ((univariate f).constantOf c) = failureKind? ((multinomial F).constantOf c)
  mulTermBy {f : Univariate D.Elem} {F : Multinomial D.Elem} (h : f.IsTwin F)
      (exponents : List ℤ) (c : Option Scalar) :
    failureKind? ((univariate f).mulTermBy exponents c) =
      failureKind? ((multinomial F).mulTermBy exponents c)
  coefficientAt {f : Univariate D.Elem} {F : Multinomial D.Elem} (h : f.IsTwin F)
      (exponents : List ℤ) :
    failureKind? ((univariate f).coefficientAt exponents) =
      failureKind? ((multinomial F).coefficientAt exponents)
  evaluate {f : Univariate D.Elem} {F : Multinomial D.Elem} {xs : List Value} (h : f.IsTwin F)
      (hxs : xs.length ≠ 1) :
    failureKind? (AnyPolynomial.evaluate ⟨D, univariate f⟩ (.list xs)).result =
      failureKind? (AnyPolynomial.evaluate ⟨D, multinomial F⟩ (.list xs)).result

/-- A product of zero with a term in two variables is a bad value for a list, and an invalid argument
for a tensor. -/
theorem not_failAlike_integers : ¬ FailAlike .integers := by
  intro h
  have htwin : Univariate.IsTwin (0 : Univariate ℤ) (Multinomial.ofTerms 1 Nat.one_pos []) :=
    ⟨rfl, rfl⟩
  have hkind := h.mulTermBy htwin [0, 0] (some (.integer 1))
  exact absurd hkind (by decide)

end PolyIdeal
