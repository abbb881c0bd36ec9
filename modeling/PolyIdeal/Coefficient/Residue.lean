/-!
# Residues of integers

The integers modulo `n`, each by its least nonnegative representative.
-/

namespace PolyIdeal

/-- An integer modulo `n`. -/
structure Residue (n : Nat) where
  val : Nat
  val_mod : val % n = val
  deriving DecidableEq

/-- Numbers `x`, `y` with `x * a + y * b = gcd a b`. -/
def bezout (a b : Nat) : Int × Int :=
  if a = 0 then (0, 1)
  else
    let r := bezout (b % a) a
    (r.2 - (b / a : Nat) * r.1, r.1)
  termination_by a
  decreasing_by exact Nat.mod_lt _ (Nat.pos_of_ne_zero ‹_›)

theorem bezout_eq (a b : Nat) : (bezout a b).1 * a + (bezout a b).2 * b = Nat.gcd a b := by
  fun_induction bezout a b with
  | case1 b => simp
  | case2 a b h r ih =>
    change r.1 * _ + r.2 * _ = _ at ih
    clear_value r
    have split : (b : Int) = a * (b / a : Nat) + (b % a : Nat) := by
      exact_mod_cast (Nat.div_add_mod b a).symm
    rw [Nat.gcd_rec, ← ih]
    generalize (b / a : Nat) = q at *
    generalize (b % a : Nat) = s at *
    show (r.2 - q * r.1) * a + r.1 * b = r.1 * s + r.2 * a
    rw [split, Int.sub_mul, Int.mul_add, ← Int.mul_assoc]
    have : (q : Int) * r.1 * a = r.1 * a * q := by
      rw [Int.mul_comm (q : Int), Int.mul_assoc, Int.mul_assoc, Int.mul_comm (q : Int)]
    omega

namespace Residue

variable {n : Nat}

def ofNat (n k : Nat) : Residue n :=
  ⟨k % n, Nat.mod_mod k n⟩

def ofInt (n : Nat) (k : Int) : Residue n :=
  ofNat n (k % n).toNat

instance : Zero (Residue n) := ⟨ofNat n 0⟩
instance : One (Residue n) := ⟨ofNat n 1⟩
instance : Add (Residue n) := ⟨fun a b => ofNat n (a.val + b.val)⟩
instance : Mul (Residue n) := ⟨fun a b => ofNat n (a.val * b.val)⟩
instance : Neg (Residue n) := ⟨fun a => ofInt n (-a.val)⟩
instance : Sub (Residue n) := ⟨fun a b => ofInt n (a.val - b.val)⟩

instance : Pow (Residue n) Nat := ⟨fun a k => ofNat n (Nat.pow a.val k)⟩

/-- The inverse of a residue coprime to the modulus. -/
def inverse? (a : Residue n) : Option (Residue n) :=
  if Nat.gcd a.val n = 1 then some (ofInt n (bezout a.val n).1) else none

def divide? (a b : Residue n) : Option (Residue n) :=
  b.inverse?.map (a * ·)

/-- The representative nearest to zero; of two, the positive one. -/
def centered (a : Residue n) : Int :=
  if a.val ≤ n / 2 then a.val else (a.val : Int) - n

@[ext] theorem ext {a b : Residue n} (h : a.val = b.val) : a = b := by
  cases a; cases b; simp_all

theorem val_ofNat (k : Nat) : (ofNat n k).val = k % n := rfl

@[simp] theorem ofNat_val (a : Residue n) : ofNat n a.val = a := ext a.val_mod

end Residue

end PolyIdeal
