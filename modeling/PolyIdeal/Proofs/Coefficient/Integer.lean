import PolyIdeal.Proofs.Coefficient.Exact

/-!
# Integers as coefficients

Every exact domain has an element for each integer. In the ring that its elements form this is the
multiple of one. A residue is given back as the integer nearest to zero that it is the residue of.
-/

namespace PolyIdeal

namespace Residue

@[simp] theorem ofInt_centered {n : ℕ} (a : Residue n) : ofInt n a.centered = a := by
  have hval : ((a.val : ℤ) % n).toNat = a.val := by
    rw [← Int.natCast_emod, a.val_mod, Int.toNat_natCast]
  apply Residue.ext
  rw [centered, ofInt, val_ofNat]
  split
  · rw [hval, a.val_mod]
  · rw [Int.sub_emod_right, hval, a.val_mod]

end Residue

/-- A coefficient ring that takes integers for the multiples of one. -/
class IntegerCoefficient (R : Type) [CommRing R] [Coefficient R] : Prop where
  ofScalar?_integer (k : ℤ) : Coefficient.ofScalar? (R := R) (.integer k) = some (k : R)

namespace IntegerCoefficient

instance : IntegerCoefficient ℤ where
  ofScalar?_integer _ := rfl

instance : IntegerCoefficient ℚ where
  ofScalar?_integer _ := rfl

instance {n : ℕ} [NeZero n] : IntegerCoefficient (Residue n) where
  ofScalar?_integer _ := rfl

end IntegerCoefficient

end PolyIdeal
