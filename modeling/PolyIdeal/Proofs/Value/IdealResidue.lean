import PolyIdeal.Proofs.Basis.IdealResidue
import PolyIdeal.Proofs.Coefficient.FieldDomain
import PolyIdeal.Proofs.Value.OneDomain

/-!
# The quotient ring by operators

Modulo a Groebner basis of an ideal the operators on residues, and on residues and polynomials or
numbers on either side, are those of the quotient ring by the ideal.
-/

namespace PolyIdeal

open PolyIdeal.Polynomial FieldDomain

/-- The class of a polynomial modulo a basis over the same domain. -/
def Value.classModulo {D : Domain} (basis : List (Polynomial D.Elem)) (order : Order)
    (f : Polynomial D.Elem) : Traced Note Value := do
  return idealResidue (← AnyIdealResidue.create ⟨D, f⟩ (ofDomain D basis) (.given order) none)

variable {D : Domain} [FieldDomain D] {n : ℕ}

/-- An operand beside a residue: a polynomial, or a number that stands for a constant. -/
inductive StandsFor (n : ℕ) : Value → Polynomial D.Elem → Prop
  | polynomial {g : Polynomial D.Elem} (hg : g.nvars = n) : StandsFor n (.ofPolynomial g) g
  | number {s : Scalar} {a : D.Elem} {g : Polynomial D.Elem} (hg : g.nvars = n)
    (ha : Coefficient.ofScalar? s = some a) (hdenote : g.denote n = MvPolynomial.C a) :
    StandsFor n (.number s) g

section Scalar

variable {p : Polynomial D.Elem} {s : Scalar} {a : D.Elem} (hp : p.nvars = n)
  (ha : Coefficient.ofScalar? s = some a)
include hp ha

theorem combineScalar_ok (op : Operator) :
    ∃ r, AnyPolynomial.combineScalar op ⟨D, p⟩ s = .ok ⟨D, r⟩ ∧ r.nvars = n ∧
      r.denote n = op.apply (p.denote n) (MvPolynomial.C a) := by
  obtain ⟨hcn, hcd⟩ := constantLike_spec hp a
  obtain ⟨r, hr, hrn, hrd⟩ := op.onPolynomials_ok hp hcn
  rw [hcd] at hrd
  rw [AnyPolynomial.combineScalar, ha]
  cases op with
  | add => exact ⟨r, congrArg (Except.map (AnyPolynomial.mk D)) hr, hrn, hrd⟩
  | sub => exact ⟨r, congrArg (Except.map (AnyPolynomial.mk D)) hr, hrn, hrd⟩
  | mul =>
    obtain ⟨hsn, hsd⟩ := scale_spec hp a
    exact ⟨p.scale a, rfl, hsn, hsd.trans (mul_comm _ _)⟩

theorem combineScalarLeft_ok :
    ∃ r, AnyPolynomial.combineScalarLeft .sub s ⟨D, p⟩ = .ok ⟨D, r⟩ ∧ r.nvars = n ∧
      r.denote n = MvPolynomial.C a - p.denote n := by
  obtain ⟨hcn, hcd⟩ := constantLike_spec hp a
  obtain ⟨r, hr, hrn, hrd⟩ := sub_ok hcn hp
  rw [hcd] at hrd
  rw [AnyPolynomial.combineScalarLeft, ha]
  exact ⟨r, congrArg (Except.map (AnyPolynomial.mk D)) hr, hrn, hrd⟩

end Scalar

namespace StandsFor

variable {v : Value} {g p : Polynomial D.Elem} (hv : StandsFor n v g)
include hv

theorem nvars_eq : g.nvars = n := by
  cases hv with
  | polynomial hg => exact hg
  | number hg => exact hg

variable (hp : p.nvars = n)
include hp

theorem combinePlain_ok (op : Operator) :
    ∃ r, Value.combinePlain op (.ofPolynomial p) v = .ok (.ofPolynomial r) ∧ r.nvars = n ∧
      r.denote n = op.apply (p.denote n) (g.denote n) := by
  cases hv with
  | polynomial hg =>
    obtain ⟨r, hr, hrn, hrd⟩ := op.onPolynomials_ok hp hg
    have hcombine := AnyPolynomial.combine_ok (hp.trans hg.symm) hr
    exact ⟨r, congrArg (Except.map Value.polynomial) hcombine, hrn, hrd⟩
  | number _ ha hdenote =>
    obtain ⟨r, hr, hrn, hrd⟩ := combineScalar_ok hp ha op
    rw [hdenote]
    exact ⟨r, congrArg (Except.map Value.polynomial) hr, hrn, hrd⟩

theorem combinePlain_sub_ok :
    ∃ r, Value.combinePlain .sub v (.ofPolynomial p) = .ok (.ofPolynomial r) ∧ r.nvars = n ∧
      r.denote n = g.denote n - p.denote n := by
  cases hv with
  | polynomial hg =>
    obtain ⟨r, hr, hrn, hrd⟩ := Operator.sub.onPolynomials_ok hg hp
    have hcombine := AnyPolynomial.combine_ok (hg.trans hp.symm) hr
    exact ⟨r, congrArg (Except.map Value.polynomial) hcombine, hrn, hrd⟩
  | number _ ha hdenote =>
    obtain ⟨r, hr, hrn, hrd⟩ := combineScalarLeft_ok hp ha
    rw [hdenote]
    exact ⟨r, congrArg (Except.map Value.polynomial) hr, hrn, hrd⟩

end StandsFor

/-- A value that is a residue for a coset of the ideal. -/
def IsClass {order : Order} (h : order.accepts n = true) (I : Ideal (MvPolynomial (Fin n) D.Elem))
    (basis : List (Polynomial D.Elem)) (v : Value) (F : MvPolynomial (Fin n) D.Elem) : Prop :=
  ∃ c, v = .idealResidue (.ofDomain c) ∧ Represents h I basis c F

section Class

variable {order : Order} {h : order.accepts n = true} {I : Ideal (MvPolynomial (Fin n) D.Elem)}
  {basis : List (Polynomial D.Elem)} (hI : IsGroebnerBasisOf order n I basis) {v w x : Value}
  {F G : MvPolynomial (Fin n) D.Elem}
include hI

theorem classModulo_ok (h : order.accepts n = true) {f : Polynomial D.Elem} (hf : f.nvars = n) :
    ∃ v, (Value.classModulo basis order f).result = .ok v ∧ IsClass h I basis v (f.denote n) := by
  obtain ⟨c, hc, hrep⟩ := Represents.of_ok hI h hf
  refine ⟨.idealResidue (.ofDomain c), ?_, c, rfl, hrep⟩
  rw [Value.classModulo, Traced.result_bind (AnyIdealResidue.create_ok hc)]
  rfl

private theorem IsClass.same_iff (hv : IsClass h I basis v F) (hw : IsClass h I basis w G) :
    v.same w = true ↔ F - G ∈ I := by
  obtain ⟨c, rfl, hc⟩ := hv
  obtain ⟨d, rfl, hd⟩ := hw
  rw [← hc.same_iff hI hd, ← AnyIdealResidue.same_ofDomain]
  rfl

theorem IsClass.combine_ok (op : Operator) (hv : IsClass h I basis v F)
    (hw : IsClass h I basis w G) :
    ∃ u, (Value.combine op v w).result = .ok u ∧ IsClass h I basis u (op.apply F G) := by
  obtain ⟨c, rfl, hc⟩ := hv
  obtain ⟨d, rfl, hd⟩ := hw
  obtain ⟨e, he, hrep⟩ := hc.combine_ok hI op hd
  exact ⟨_, Traced.result_bind (AnyIdealResidue.combine_ok he) _, e, rfl, hrep⟩

theorem IsClass.neg_ok (hv : IsClass h I basis v F) :
    ∃ u, v.neg.result = .ok u ∧ IsClass h I basis u (-F) := by
  obtain ⟨c, rfl, hc⟩ := hv
  obtain ⟨e, he, hrep⟩ := hc.neg_ok hI
  exact ⟨_, Traced.result_bind (AnyIdealResidue.neg_ok he) _, e, rfl, hrep⟩

theorem classOf_polynomial_ok {c : IdealResidue D.Elem} (hc : Represents h I basis c F)
    {r : Polynomial D.Elem} (hr : r.nvars = n) (hmem : G - r.denote n ∈ I) :
    ∃ u, (Value.classOf (.ofDomain c) (.ok (.ofPolynomial r))).result = .ok u ∧
      IsClass h I basis u G := by
  obtain ⟨e, he, hrep⟩ := hc.classOf_ok hI hr
  exact ⟨_, Traced.result_bind (AnyIdealResidue.classOf_ok he) _, e, rfl, hrep.of_sub_mem hmem⟩

theorem IsClass.combine_operand_ok (op : Operator) (hv : IsClass h I basis v F)
    {g : Polynomial D.Elem} (hx : StandsFor n x g) :
    ∃ u, (Value.combine op v x).result = .ok u ∧
      IsClass h I basis u (op.apply F (g.denote n)) := by
  obtain ⟨c, rfl, hc⟩ := hv
  obtain ⟨r, hr, hrn, hrd⟩ := hx.combinePlain_ok hc.nvars_eq op
  have hcombine : Value.combine op (.idealResidue (.ofDomain c)) x =
      Value.classOf (.ofDomain c) (Value.combinePlain op (.ofPolynomial c.polynomial) x) := by
    cases hx <;> rfl
  rw [hcombine, hr]
  apply classOf_polynomial_ok hI hc hrn
  rw [hrd]
  exact op.apply_sub_mem hc.sub_mem (by simp)

theorem IsClass.operand_combine_ok (op : Operator) (hv : IsClass h I basis v F)
    {g : Polynomial D.Elem} (hx : StandsFor n x g) :
    ∃ u, (Value.combine op x v).result = .ok u ∧
      IsClass h I basis u (op.apply (g.denote n) F) := by
  have hv' := hv
  obtain ⟨c, rfl, hc⟩ := hv
  cases op with
  | add =>
    have hcombine : Value.combine .add x (.idealResidue (.ofDomain c)) =
        Value.combine .add (.idealResidue (.ofDomain c)) x := by cases hx <;> rfl
    obtain ⟨u, hu, hclass⟩ := hv'.combine_operand_ok hI .add hx
    refine ⟨u, hcombine ▸ hu, ?_⟩
    show IsClass h I basis u (g.denote n + F)
    rw [add_comm]
    exact hclass
  | mul =>
    have hcombine : Value.combine .mul x (.idealResidue (.ofDomain c)) =
        Value.combine .mul (.idealResidue (.ofDomain c)) x := by cases hx <;> rfl
    obtain ⟨u, hu, hclass⟩ := hv'.combine_operand_ok hI .mul hx
    refine ⟨u, hcombine ▸ hu, ?_⟩
    show IsClass h I basis u (g.denote n * F)
    rw [mul_comm]
    exact hclass
  | sub =>
    obtain ⟨r, hr, hrn, hrd⟩ := hx.combinePlain_sub_ok hc.nvars_eq
    have hcombine : Value.combine .sub x (.idealResidue (.ofDomain c)) =
        Value.classOf (.ofDomain c) (Value.combinePlain .sub x (.ofPolynomial c.polynomial)) := by
      cases hx <;> rfl
    rw [hcombine, hr]
    apply classOf_polynomial_ok hI hc hrn
    rw [hrd]
    exact Operator.sub.apply_sub_mem (by simp) hc.sub_mem

end Class

/-- The value is the class of a polynomial in `n` variables. -/
def ClassOf (n : ℕ) (order : Order) (basis : List (Polynomial D.Elem)) (f : Polynomial D.Elem)
    (v : Value) : Prop :=
  f.nvars = n ∧ (Value.classModulo basis order f).result = .ok v

/-- Operators on classes of polynomials are those of the quotient ring by an ideal, whatever operand
is given by its class. -/
structure IsQuotientRing (n : ℕ) (order : Order) (I : Ideal (MvPolynomial (Fin n) D.Elem))
    (basis : List (Polynomial D.Elem)) : Prop where
  exists_class : ∀ f : Polynomial D.Elem, f.nvars = n → ∃ v, ClassOf n order basis f v
  same_iff : ∀ f g v w, ClassOf n order basis f v → ClassOf n order basis g w →
    (v.same w = true ↔ f.denote n - g.denote n ∈ I)
  combine : ∀ op f g v w, ClassOf n order basis f v → ClassOf n order basis g w →
    ∃ r u u', (Value.combine op (.ofPolynomial f) (.ofPolynomial g)).result =
        .ok (.ofPolynomial r) ∧
      ClassOf n order basis r u ∧ (Value.combine op v w).result = .ok u' ∧ u'.same u = true
  neg : ∀ f v, ClassOf n order basis f v →
    ∃ r u u', (Value.neg (.ofPolynomial f)).result = .ok (.ofPolynomial r) ∧
      ClassOf n order basis r u ∧ v.neg.result = .ok u' ∧ u'.same u = true
  combine_operand : ∀ op f g v w x, ClassOf n order basis f v → ClassOf n order basis g w →
    StandsFor n x g → ∃ u u', (Value.combine op v x).result = .ok u ∧
      (Value.combine op v w).result = .ok u' ∧ u.same u' = true
  operand_combine : ∀ op f g v w x, ClassOf n order basis f v → ClassOf n order basis g w →
    StandsFor n x g → ∃ u u', (Value.combine op x v).result = .ok u ∧
      (Value.combine op w v).result = .ok u' ∧ u.same u' = true

section Quotient

variable {order : Order} {I : Ideal (MvPolynomial (Fin n) D.Elem)}
  {basis : List (Polynomial D.Elem)} (hI : IsGroebnerBasisOf order n I basis) {v w : Value}
  {f : Polynomial D.Elem}
include hI

private theorem ClassOf.isClass (h : order.accepts n = true) (hv : ClassOf n order basis f v) :
    IsClass h I basis v (f.denote n) := by
  obtain ⟨v', hv', hclass⟩ := classModulo_ok hI h hv.1
  obtain rfl := Except.ok.inj (hv.2.symm.trans hv')
  exact hclass

private theorem IsClass.same_of_eq {h : order.accepts n = true} {F : MvPolynomial (Fin n) D.Elem}
    (hv : IsClass h I basis v F) (hw : IsClass h I basis w F) : v.same w = true := by
  rw [hv.same_iff hI hw, sub_self]
  exact Ideal.zero_mem I

/-- Modulo a Groebner basis the operators are those of the quotient ring. -/
theorem isQuotientRing (h : order.accepts n = true) : IsQuotientRing n order I basis where
  exists_class f hf := by
    obtain ⟨v, hv, -⟩ := classModulo_ok hI h hf
    exact ⟨v, hf, hv⟩
  same_iff f g v w hv hw := (hv.isClass hI h).same_iff hI (hw.isClass hI h)
  combine op f g v w hv hw := by
    obtain ⟨r, hr, hrn, hrd⟩ := (StandsFor.polynomial hw.1).combinePlain_ok hv.1 op
    obtain ⟨u, hu, hclass⟩ := classModulo_ok hI h hrn
    obtain ⟨u', hu', hclass'⟩ := (hv.isClass hI h).combine_ok hI op (hw.isClass hI h)
    rw [hrd] at hclass
    exact ⟨r, u, u', hr, ⟨hrn, hu⟩, hu', hclass'.same_of_eq hI hclass⟩
  neg f v hv := by
    obtain ⟨hrn, hrd⟩ := neg_spec hv.1
    obtain ⟨u, hu, hclass⟩ := classModulo_ok hI h hrn
    obtain ⟨u', hu', hclass'⟩ := (hv.isClass hI h).neg_ok hI
    rw [hrd] at hclass
    exact ⟨-f, u, u', rfl, ⟨hrn, hu⟩, hu', hclass'.same_of_eq hI hclass⟩
  combine_operand op f g v w x hv hw hx := by
    obtain ⟨u, hu, hclass⟩ := (hv.isClass hI h).combine_operand_ok hI op hx
    obtain ⟨u', hu', hclass'⟩ := (hv.isClass hI h).combine_ok hI op (hw.isClass hI h)
    exact ⟨u, u', hu, hu', hclass.same_of_eq hI hclass'⟩
  operand_combine op f g v w x hv hw hx := by
    obtain ⟨u, hu, hclass⟩ := (hv.isClass hI h).operand_combine_ok hI op hx
    obtain ⟨u', hu', hclass'⟩ := (hw.isClass hI h).combine_ok hI op (hv.isClass hI h)
    exact ⟨u, u', hu, hu', hclass.same_of_eq hI hclass'⟩

end Quotient

noncomputable def multiples (n : ℕ) (g : Polynomial D.Elem) : Ideal (MvPolynomial (Fin n) D.Elem) :=
  Ideal.span {g.denote n}

theorem isGroebnerBasisOf_multiples {order : Order} (h : order.accepts n = true)
    {g : Polynomial D.Elem} (hg : g.nvars = n) (hzero : g.isZero = false) :
    IsGroebnerBasisOf order n (multiples n g) [g] :=
  isGroebnerBasisOf_singleton h hg hzero

theorem isQuotientRing_residues :
    IsQuotientRing (D := .residues 3) 1 .lex
      (multiples 1 (.univariate (.ofCoefficients [1, 0, 1])))
      [.univariate (.ofCoefficients [1, 0, 1])] :=
  isQuotientRing (isGroebnerBasisOf_multiples rfl rfl (by decide)) rfl

end PolyIdeal
