import PolyIdeal.Failure

/-!
# Monomials

A monomial `X0^e0 * X1^e1 * ...` is its list of exponents. The operations are defined for exponents
of any number type; polynomials use natural exponents, and the checked forms take integers and
refuse operands of different arity.
-/

namespace PolyIdeal

abbrev Monomial := List Nat

namespace Monomial

variable {α : Type}

def mul [Add α] (m₁ m₂ : List α) : List α :=
  List.zipWith (· + ·) m₁ m₂

def divides [LE α] [DecidableLE α] : List α → List α → Bool
  | a :: m₁, b :: m₂ => decide (a ≤ b) && divides m₁ m₂
  | _, _ => true

/-- The quotient `m₁ / m₂`, if `m₂` divides `m₁`. -/
def div? [Sub α] [LE α] [DecidableLE α] (m₁ m₂ : List α) : Option (List α) :=
  if divides m₂ m₁ then some (List.zipWith (· - ·) m₁ m₂) else none

def lcm [Max α] (m₁ m₂ : List α) : List α :=
  List.zipWith max m₁ m₂

def coprime [OfNat α 0] [DecidableEq α] : List α → List α → Bool
  | a :: m₁, b :: m₂ => (decide (a = 0) || decide (b = 0)) && coprime m₁ m₂
  | _, _ => true

def totalDegree [Add α] [OfNat α 0] (m : List α) : α :=
  m.sum

def unit (nvars : Nat) : Monomial :=
  List.replicate nvars 0

/-- The exponents as integers, the form in which messages show them. -/
def toInts (m : Monomial) : List Int :=
  m.map Int.ofNat

def ofInts? (exponents : List Int) : Except Failure Monomial :=
  if exponents.all (0 ≤ ·) then .ok (exponents.map Int.toNat)
  else .error (.invalid (.negativeExponents exponents))

def checkArity (m₁ m₂ : List Int) : Except Failure Unit :=
  if m₁.length = m₂.length then .ok () else .error (.invalid (.arities m₁ m₂))

def mul? (m₁ m₂ : List Int) : Except Failure (List Int) := do
  checkArity m₁ m₂
  return mul m₁ m₂

def quotient? (m₁ m₂ : List Int) : Except Failure (Option (List Int)) := do
  checkArity m₁ m₂
  return div? m₁ m₂

def divides? (m₁ m₂ : List Int) : Except Failure Bool := do
  checkArity m₁ m₂
  return divides m₁ m₂

def lcm? (m₁ m₂ : List Int) : Except Failure (List Int) := do
  checkArity m₁ m₂
  return lcm m₁ m₂

def coprime? (m₁ m₂ : List Int) : Except Failure Bool := do
  checkArity m₁ m₂
  return coprime m₁ m₂

@[simp] theorem length_toInts (m : Monomial) : m.toInts.length = m.length := by
  simp [toInts]

theorem ofInts?_toInts (m : Monomial) : ofInts? m.toInts = .ok m := by
  simp [ofInts?, toInts, Function.comp_def]

theorem toInts_map_toNat {exponents : List Int} (h : exponents.all (0 ≤ ·) = true) :
    toInts (exponents.map Int.toNat) = exponents := by
  rw [toInts, List.map_map]
  refine (List.map_congr_left fun i hi => ?_).trans exponents.map_id
  exact Int.toNat_of_nonneg (of_decide_eq_true (List.all_eq_true.mp h i hi))

end Monomial

end PolyIdeal
