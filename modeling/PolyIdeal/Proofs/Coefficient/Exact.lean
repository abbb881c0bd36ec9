import Mathlib.Algebra.Field.Rat
import Mathlib.Algebra.Field.ZMod
import Mathlib.Algebra.Ring.Hom.InjSurj
import PolyIdeal.Coefficient.Basic
import PolyIdeal.Euclid.Ring

/-!
# Exact coefficients

Integers, rationals and residues modulo a prime form integral domains in which exact division finds
every quotient there is. The rationals and the residues modulo a prime are the fields among them.
-/

namespace PolyIdeal

private theorem noDivisorFrom_eq_true {n d : ℕ} (hd : d ≠ 0) :
    noDivisorFrom n d = true ↔ ∀ k, d ≤ k → k * k ≤ n → ¬ k ∣ n := by
  fun_induction noDivisorFrom n d with
  | case1 d h hdvd =>
    simp only [Bool.false_eq_true, false_iff, not_forall, not_not]
    exact ⟨d, le_rfl, h.1, Nat.dvd_of_mod_eq_zero hdvd⟩
  | case2 d h hdvd ih =>
    rw [ih (by omega)]
    constructor
    · intro hk k hdk hkn
      rcases Nat.lt_or_eq_of_le hdk with hlt | rfl
      · exact hk k hlt hkn
      · intro hdvd'
        exact hdvd (Nat.mod_eq_zero_of_dvd hdvd')
    · intro hk k hdk hkn
      exact hk k (by omega) hkn
  | case3 d h =>
    simp only [true_iff]
    intro k hdk hkn
    have hdd : d * d ≤ k * k := Nat.mul_le_mul hdk hdk
    exact absurd ⟨by omega, hd⟩ h

private theorem isPrime_eq_true {p : ℕ} : isPrime p = true ↔ p.Prime := by
  rw [Nat.prime_def_le_sqrt]
  simp only [isPrime, Bool.and_eq_true, decide_eq_true_eq]
  apply and_congr_right
  intro _
  rw [noDivisorFrom_eq_true (by decide)]
  simp only [Nat.le_sqrt]

namespace Residue

variable {n : ℕ}

instance : NatCast (Residue n) := ⟨ofNat n⟩
instance : IntCast (Residue n) := ⟨ofInt n⟩
instance : SMul ℕ (Residue n) := ⟨fun k a => ofNat n (k * a.val)⟩
instance : SMul ℤ (Residue n) := ⟨fun k a => ofInt n (k * a.val)⟩

def toZMod (a : Residue n) : ZMod n := a.val

@[simp] theorem toZMod_ofNat (k : ℕ) : (ofNat n k).toZMod = k := by
  simp [toZMod, ofNat]

private theorem toZMod_injective : Function.Injective (toZMod : Residue n → ZMod n) := by
  intro a b h
  have hmod := (ZMod.natCast_eq_natCast_iff' a.val b.val n).mp h
  rw [a.val_mod, b.val_mod] at hmod
  exact Residue.ext hmod

private theorem toZMod_add (a b : Residue n) : (a + b).toZMod = a.toZMod + b.toZMod := by
  change (ofNat n (a.val + b.val)).toZMod = _
  rw [toZMod_ofNat, Nat.cast_add]
  rfl

private theorem toZMod_mul (a b : Residue n) : (a * b).toZMod = a.toZMod * b.toZMod := by
  change (ofNat n (a.val * b.val)).toZMod = _
  rw [toZMod_ofNat, Nat.cast_mul]
  rfl

private theorem toZMod_nsmul (k : ℕ) (a : Residue n) : (k • a).toZMod = k • a.toZMod := by
  change (ofNat n (k * a.val)).toZMod = _
  rw [toZMod_ofNat, Nat.cast_mul, nsmul_eq_mul]
  rfl

private theorem toZMod_pow (a : Residue n) (k : ℕ) : (a ^ k).toZMod = a.toZMod ^ k := by
  change (ofNat n (a.val ^ k)).toZMod = _
  rw [toZMod_ofNat, Nat.cast_pow]
  rfl

variable [NeZero n]

@[simp] theorem toZMod_ofInt (k : ℤ) : (ofInt n k).toZMod = k := by
  have hn : (n : ℤ) ≠ 0 := by exact_mod_cast NeZero.ne n
  have hnonneg : ((k % n).toNat : ℤ) = k % n := Int.toNat_of_nonneg (Int.emod_nonneg k hn)
  rw [ofInt, toZMod_ofNat, ← Int.cast_natCast, hnonneg, ZMod.intCast_mod]

private theorem toZMod_neg (a : Residue n) : (-a).toZMod = -a.toZMod := by
  change (ofInt n (-a.val)).toZMod = _
  rw [toZMod_ofInt, Int.cast_neg, Int.cast_natCast]
  rfl

private theorem toZMod_sub (a b : Residue n) : (a - b).toZMod = a.toZMod - b.toZMod := by
  change (ofInt n (a.val - b.val)).toZMod = _
  rw [toZMod_ofInt, Int.cast_sub, Int.cast_natCast, Int.cast_natCast]
  rfl

private theorem toZMod_zsmul (k : ℤ) (a : Residue n) : (k • a).toZMod = k • a.toZMod := by
  change (ofInt n (k * a.val)).toZMod = _
  rw [toZMod_ofInt, Int.cast_mul, Int.cast_natCast, zsmul_eq_mul]
  rfl

instance : CommRing (Residue n) :=
  toZMod_injective.commRing toZMod ((toZMod_ofNat 0).trans Nat.cast_zero)
    ((toZMod_ofNat 1).trans Nat.cast_one) toZMod_add toZMod_mul toZMod_neg toZMod_sub
    toZMod_nsmul toZMod_zsmul toZMod_pow toZMod_ofNat toZMod_ofInt

private theorem inverse?_mul {a b : Residue n} (h : a.inverse? = some b) : b * a = 1 := by
  rw [inverse?] at h
  split at h
  · rename_i hgcd
    obtain rfl := Option.some.inj h
    have hbezout := bezout_eq a.val n
    rw [hgcd] at hbezout
    have hcast := congrArg (Int.cast : ℤ → ZMod n) hbezout
    push_cast at hcast
    rw [ZMod.natCast_self, mul_zero, add_zero] at hcast
    apply toZMod_injective
    rw [toZMod_mul, toZMod_ofInt]
    exact hcast.trans ((toZMod_ofNat 1).trans Nat.cast_one).symm
  · cases h

variable {p : ℕ} [Fact p.Prime]

private theorem inverse?_isSome (a : Residue p) : a.inverse?.isSome ↔ a ≠ 0 := by
  have hp : p.Prime := Fact.out
  have hlt : a.val < p := by
    rw [← a.val_mod]
    exact Nat.mod_lt _ hp.pos
  have hzero : a = 0 ↔ a.val = 0 := by
    rw [Residue.ext_iff]
    change a.val = 0 % p ↔ _
    rw [Nat.zero_mod]
  rw [inverse?, hzero.ne]
  split
  · rename_i hgcd
    simp only [Option.isSome_some, true_iff]
    intro ha
    rw [ha, Nat.gcd_zero_left] at hgcd
    exact hp.one_lt.ne' hgcd
  · rename_i hgcd
    simp only [Option.isSome_none, Bool.false_eq_true, false_iff, not_not]
    by_contra ha
    exact hgcd (Nat.coprime_of_lt_prime ha hlt hp).symm

private def toZModHom (n : ℕ) [NeZero n] : Residue n →+* ZMod n where
  toFun := toZMod
  map_zero' := (toZMod_ofNat 0).trans Nat.cast_zero
  map_one' := (toZMod_ofNat 1).trans Nat.cast_one
  map_add' := toZMod_add
  map_mul' := toZMod_mul

end Residue

/-- A coefficient ring without zero divisors whose division finds the quotient if there is one. -/
class ExactCoefficient (R : Type) [CommRing R] [Coefficient R] : Prop extends IsDomain R where
  exquo?_eq_some {a b c : R} : Coefficient.exquo? a b = some c ↔ b ≠ 0 ∧ c * b = a

/-- A coefficient ring whose division finds only quotients. -/
class SoundDivision (R : Type) [CommRing R] [Coefficient R] : Prop where
  mul_of_exquo? {a b c : R} : Coefficient.exquo? a b = some c → c * b = a

instance {R : Type} [CommRing R] [Coefficient R] [ExactCoefficient R] : SoundDivision R where
  mul_of_exquo? h := (ExactCoefficient.exquo?_eq_some.mp h).2

/-- Residues modulo any number are divided by units only. -/
instance {n : ℕ} [NeZero n] : SoundDivision (Residue n) where
  mul_of_exquo? {a b c} h := by
    obtain ⟨x, hx, rfl⟩ := Option.map_eq_some_iff.mp (show b.inverse?.map (a * ·) = some c from h)
    rw [mul_assoc, Residue.inverse?_mul hx, mul_one]

/-- A coefficient ring that is a field, and is known to be one. -/
class FieldCoefficient (R : Type) [CommRing R] [Coefficient R] : Prop extends
    ExactCoefficient R where
  isUnit_of_ne_zero {a : R} : a ≠ 0 → IsUnit a
  isField_domain : (Coefficient.domain R).isField = true

/-- An exact coefficient ring that is said to be a field only if it is one. -/
class DomainCoefficient (R : Type) [CommRing R] [Coefficient R] : Prop extends
    ExactCoefficient R where
  fieldCoefficient : (Coefficient.domain R).isField = true → FieldCoefficient R

instance {R : Type} [CommRing R] [Coefficient R] [FieldCoefficient R] : DomainCoefficient R where
  fieldCoefficient _ := inferInstance

namespace Coefficient

variable {R : Type} [CommRing R] [Coefficient R]

section Inverse

variable [ExactCoefficient R] {a : R}

theorem exquo?_one_of_isUnit (h : IsUnit a) : ∃ c, exquo? 1 a = some c ∧ c * a = 1 := by
  obtain ⟨c, hc⟩ := h.exists_left_inv
  exact ⟨c, ExactCoefficient.exquo?_eq_some.mpr ⟨h.ne_zero, hc⟩, hc⟩

theorem exquo?_one_of_not_isUnit (h : ¬ IsUnit a) : exquo? 1 a = none := by
  cases hquo : exquo? 1 a with
  | none => rfl
  | some c => exact absurd (.of_mul_eq_one_right c (ExactCoefficient.exquo?_eq_some.mp hquo).2) h

theorem inverse_of_isUnit (h : IsUnit a) : ∃ c, inverse a = .ok c ∧ c * a = 1 := by
  obtain ⟨c, hquo, hc⟩ := exquo?_one_of_isUnit h
  exact ⟨c, by rw [inverse, exactQuotient, hquo], hc⟩

theorem inverse_of_not_isUnit (h : ¬ IsUnit a) :
    ∃ cause, inverse a = .error (.arithmetic cause) :=
  ⟨_, by rw [inverse, exactQuotient, exquo?_one_of_not_isUnit h]⟩

end Inverse

variable [FieldCoefficient R]

theorem exquo?_ok {b : R} (h : b ≠ 0) (a : R) : ∃ c, exquo? a b = some c ∧ c * b = a := by
  obtain ⟨c, hc⟩ := (FieldCoefficient.isUnit_of_ne_zero h).exists_left_inv
  have hmul : a * c * b = a := by rw [mul_assoc, hc, mul_one]
  exact ⟨a * c, ExactCoefficient.exquo?_eq_some.mpr ⟨h, hmul⟩, hmul⟩

end Coefficient

instance : ExactCoefficient ℤ where
  exquo?_eq_some {a b c} := by
    change (if b = 0 then none else if a % b = 0 then some (a / b) else none) = some c ↔ _
    by_cases hb : b = 0
    · simp [hb]
    rw [if_neg hb]
    constructor
    · intro h
      split at h
      · rename_i hmod
        obtain rfl := Option.some.inj h
        exact ⟨hb, Int.ediv_mul_cancel (Int.dvd_of_emod_eq_zero hmod)⟩
      · cases h
    · rintro ⟨-, rfl⟩
      rw [if_pos (Int.mul_emod_left c b), Int.mul_ediv_cancel c hb]

instance : DomainCoefficient ℤ where
  fieldCoefficient hfield := absurd hfield Bool.false_ne_true

instance : FieldCoefficient ℚ where
  exquo?_eq_some {a b c} := by
    change (if b = 0 then none else some (a / b)) = some c ↔ _
    by_cases hb : b = 0
    · simp [hb]
    rw [if_neg hb, Option.some_inj, div_eq_iff hb, eq_comm]
    exact (and_iff_right hb).symm
  isUnit_of_ne_zero := IsUnit.mk0 _
  isField_domain := rfl

instance {p : ℕ} [Fact p.Prime] : FieldCoefficient (Residue p) where
  toIsDomain := Function.Injective.isDomain (Residue.toZModHom p) Residue.toZMod_injective
  exquo?_eq_some {a b c} := by
    change b.inverse?.map (a * ·) = some c ↔ _
    cases hb : b.inverse? with
    | none =>
      have hzero : ¬ b ≠ 0 := by rw [← Residue.inverse?_isSome, hb]; simp
      simp [hzero]
    | some x =>
      have hne : b ≠ 0 := by rw [← Residue.inverse?_isSome, hb]; simp
      have hx : x * b = 1 := Residue.inverse?_mul hb
      rw [Option.map_some, Option.some_inj, and_iff_right hne]
      constructor
      · rintro rfl
        rw [mul_assoc, hx, mul_one]
      · rintro rfl
        rw [mul_assoc, mul_comm b x, hx, mul_one]
  isUnit_of_ne_zero {a} ha := by
    obtain ⟨x, hx⟩ := Option.isSome_iff_exists.mp ((Residue.inverse?_isSome a).mpr ha)
    exact IsUnit.of_mul_eq_one x ((mul_comm a x).trans (Residue.inverse?_mul hx))
  isField_domain := isPrime_eq_true.mpr Fact.out

end PolyIdeal
