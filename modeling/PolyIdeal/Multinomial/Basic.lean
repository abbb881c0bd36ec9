import PolyIdeal.Coefficient.Basic
import PolyIdeal.Tensor

/-!
# Polynomials in several variables

A polynomial in `n ≥ 1` variables is the tensor of its coefficients: the coefficient of a monomial
is the entry at its exponents. The tensor is trimmed on every axis to the highest exponent that
occurs.
-/

namespace PolyIdeal

structure Multinomial (R : Type) [Zero R] where
  tensor : Tensor R
  trimmed : tensor.IsTrimmed
  shape_ne_nil : tensor.shape ≠ []

namespace Multinomial

variable {R : Type} [Zero R]

@[ext] theorem ext {p q : Multinomial R} (h : p.tensor = q.tensor) : p = q := by
  cases p; cases q; simp_all

instance [DecidableEq R] : DecidableEq (Multinomial R) := fun p q =>
  decidable_of_iff (p.tensor = q.tensor) ⟨ext, fun h => h ▸ rfl⟩

def nvars (p : Multinomial R) : Nat :=
  p.tensor.shape.length

theorem nvars_pos (p : Multinomial R) : 0 < p.nvars :=
  List.length_pos_iff.mpr p.shape_ne_nil

/-- The degree in each variable, -1 everywhere for zero. -/
def degrees (p : Multinomial R) : List Int :=
  p.tensor.shape.map fun n => Int.ofNat n - 1

variable [DecidableEq R]

/-- The polynomial of a tensor that may be larger than needed. -/
def ofTensor (t : Tensor R) (h : t.shape ≠ []) : Multinomial R :=
  ⟨t.trim, t.isTrimmed_trim, by
    have := t.length_shape_trim
    intro e
    rw [e] at this
    exact h (List.length_eq_zero_iff.mp this.symm)⟩

def coefficient (p : Multinomial R) (m : Monomial) : R :=
  p.tensor.get m

theorem coefficient_ofTensor (t : Tensor R) (h : t.shape ≠ []) (m : Monomial) :
    (ofTensor t h).coefficient m = t.get m :=
  Tensor.get_trim t m

def terms (p : Multinomial R) : List (Monomial × R) :=
  p.tensor.terms

def isZero (p : Multinomial R) : Bool :=
  p.terms.isEmpty

end Multinomial

end PolyIdeal
