import PolyIdeal.Proofs.Coefficient.Exact

/-!
# Domains that are exact fields

The rationals and the residues modulo a prime, as domains. Their elements form a field by the
operations that every domain has.
-/

namespace PolyIdeal

/-- The rationals or the residues modulo a prime. -/
class FieldDomain (D : Domain) : Prop where
  eq_or : D = .rationals ∨ ∃ p : ℕ, p.Prime ∧ D = .residues p

namespace FieldDomain

instance : FieldDomain .rationals := ⟨.inl rfl⟩

instance {p : ℕ} [hp : Fact p.Prime] : FieldDomain (.residues p) := ⟨.inr ⟨p, hp.out, rfl⟩⟩

private theorem law {P : Domain → Prop} (hrationals : P .rationals)
    (hresidues : ∀ (p : ℕ) [Fact p.Prime], P (.residues p)) (D : Domain) [hD : FieldDomain D] :
    P D := by
  rcases hD.eq_or with rfl | ⟨p, hp, rfl⟩
  · exact hrationals
  · have : Fact p.Prime := ⟨hp⟩
    exact hresidues p

variable (D : Domain) [FieldDomain D]

scoped instance : CommRing D.Elem where
  zero := 0
  one := 1
  add := (· + ·)
  mul := (· * ·)
  neg := (- ·)
  sub := (· - ·)
  nsmul := nsmulRec
  zsmul := zsmulRec
  npow := npowRec
  add_assoc := law (P := fun D => ∀ a b c : D.Elem, a + b + c = a + (b + c))
    (fun a b c : ℚ => add_assoc a b c) (fun p _ (a b c : Residue p) => add_assoc a b c) D
  zero_add := law (P := fun D => ∀ a : D.Elem, 0 + a = a)
    (fun a : ℚ => zero_add a) (fun p _ (a : Residue p) => zero_add a) D
  add_zero := law (P := fun D => ∀ a : D.Elem, a + 0 = a)
    (fun a : ℚ => add_zero a) (fun p _ (a : Residue p) => add_zero a) D
  add_comm := law (P := fun D => ∀ a b : D.Elem, a + b = b + a)
    (fun a b : ℚ => add_comm a b) (fun p _ (a b : Residue p) => add_comm a b) D
  neg_add_cancel := law (P := fun D => ∀ a : D.Elem, -a + a = 0)
    (fun a : ℚ => neg_add_cancel a) (fun p _ (a : Residue p) => neg_add_cancel a) D
  sub_eq_add_neg := law (P := fun D => ∀ a b : D.Elem, a - b = a + -b)
    (fun a b : ℚ => sub_eq_add_neg a b) (fun p _ (a b : Residue p) => sub_eq_add_neg a b) D
  mul_assoc := law (P := fun D => ∀ a b c : D.Elem, a * b * c = a * (b * c))
    (fun a b c : ℚ => mul_assoc a b c) (fun p _ (a b c : Residue p) => mul_assoc a b c) D
  mul_comm := law (P := fun D => ∀ a b : D.Elem, a * b = b * a)
    (fun a b : ℚ => mul_comm a b) (fun p _ (a b : Residue p) => mul_comm a b) D
  one_mul := law (P := fun D => ∀ a : D.Elem, 1 * a = a)
    (fun a : ℚ => one_mul a) (fun p _ (a : Residue p) => one_mul a) D
  mul_one := law (P := fun D => ∀ a : D.Elem, a * 1 = a)
    (fun a : ℚ => mul_one a) (fun p _ (a : Residue p) => mul_one a) D
  zero_mul := law (P := fun D => ∀ a : D.Elem, 0 * a = 0)
    (fun a : ℚ => zero_mul a) (fun p _ (a : Residue p) => zero_mul a) D
  mul_zero := law (P := fun D => ∀ a : D.Elem, a * 0 = 0)
    (fun a : ℚ => mul_zero a) (fun p _ (a : Residue p) => mul_zero a) D
  left_distrib := law (P := fun D => ∀ a b c : D.Elem, a * (b + c) = a * b + a * c)
    (fun a b c : ℚ => left_distrib a b c) (fun p _ (a b c : Residue p) => left_distrib a b c) D
  right_distrib := law (P := fun D => ∀ a b c : D.Elem, (a + b) * c = a * c + b * c)
    (fun a b c : ℚ => right_distrib a b c) (fun p _ (a b c : Residue p) => right_distrib a b c) D

private theorem exquo?_eq_some : ∀ a b c : D.Elem,
    Coefficient.exquo? a b = some c ↔ b ≠ 0 ∧ c * b = a :=
  law (P := fun D => ∀ a b c : D.Elem, Coefficient.exquo? a b = some c ↔ b ≠ 0 ∧ c * b = a)
    (fun _ _ _ : ℚ => ExactCoefficient.exquo?_eq_some)
    (fun p _ (_ _ _ : Residue p) => ExactCoefficient.exquo?_eq_some) D

private theorem exists_mul_eq_one : ∀ a : D.Elem, a ≠ 0 → ∃ b, b * a = 1 :=
  law (P := fun D => ∀ a : D.Elem, a ≠ 0 → ∃ b, b * a = 1)
    (fun _ ha => (FieldCoefficient.isUnit_of_ne_zero (R := ℚ) ha).exists_left_inv)
    (fun p _ _ ha => (FieldCoefficient.isUnit_of_ne_zero (R := Residue p) ha).exists_left_inv) D

private theorem isField_domain : (Coefficient.domain D.Elem).isField = true :=
  law (P := fun D => (Coefficient.domain D.Elem).isField = true)
    (FieldCoefficient.isField_domain (R := ℚ))
    (fun p _ => FieldCoefficient.isField_domain (R := Residue p)) D

scoped instance : IsDomain D.Elem := by
  have : Nontrivial D.Elem := ⟨0, 1, law (P := fun D => (0 : D.Elem) ≠ 1) (zero_ne_one' ℚ)
    (fun p _ => zero_ne_one' (Residue p)) D⟩
  have : NoZeroDivisors D.Elem := by
    constructor
    intro a b hab
    by_cases ha : a = 0
    · exact .inl ha
    · obtain ⟨c, hc⟩ := exists_mul_eq_one D a ha
      right
      rw [← one_mul b, ← hc, mul_assoc, hab, mul_zero]
  exact NoZeroDivisors.to_isDomain D.Elem

scoped instance : FieldCoefficient D.Elem where
  exquo?_eq_some := exquo?_eq_some D _ _ _
  isUnit_of_ne_zero ha := by
    obtain ⟨b, hb⟩ := exists_mul_eq_one D _ ha
    exact IsUnit.of_mul_eq_one b ((mul_comm _ b).trans hb)
  isField_domain := isField_domain D

end FieldDomain

end PolyIdeal
