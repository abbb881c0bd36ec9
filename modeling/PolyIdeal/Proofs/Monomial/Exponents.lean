import Mathlib.Data.Finsupp.Order
import Mathlib.Data.Finsupp.Fintype
import Mathlib.Data.List.OfFn
import Mathlib.Order.Lattice.Nat
import PolyIdeal.Monomial.Basic

/-!
# Monomials as exponent vectors

Monomials in `n` variables are the lists of length `n`, and correspond to the finitely supported
exponent vectors on `Fin n`. Products, quotients and common multiples are sums, differences and
suprema there.
-/

namespace PolyIdeal.Monomial

variable {n : ℕ}

/-- The exponents of the first `n` variables. -/
noncomputable def exponents (n : ℕ) (m : Monomial) : Fin n →₀ ℕ :=
  Finsupp.equivFunOnFinite.symm fun i => m.getD i 0

/-- The monomial with given exponents. -/
def ofExponents (e : Fin n →₀ ℕ) : Monomial := List.ofFn e

@[simp] theorem exponents_apply (m : Monomial) (i : Fin n) : exponents n m i = m.getD i 0 := rfl

@[simp] theorem length_ofExponents (e : Fin n →₀ ℕ) : (ofExponents e).length = n :=
  List.length_ofFn

@[simp] theorem exponents_ofExponents (e : Fin n →₀ ℕ) : exponents n (ofExponents e) = e := by
  ext i
  simp [ofExponents, List.getD_eq_getElem?_getD]

theorem ofExponents_exponents {m : Monomial} (h : m.length = n) :
    ofExponents (exponents n m) = m := by
  apply List.ext_getElem
  · simp [h]
  · intro i _ hi
    simp [ofExponents, List.getD_eq_getElem?_getD, hi]

theorem ofExponents_injective : Function.Injective (ofExponents (n := n)) := by
  intro d e h
  rw [← exponents_ofExponents d, h, exponents_ofExponents]

@[simp] theorem ofExponents_inj {d e : Fin n →₀ ℕ} : ofExponents d = ofExponents e ↔ d = e :=
  ofExponents_injective.eq_iff

theorem exists_ofExponents {m : Monomial} (h : m.length = n) :
    ∃ e : Fin n →₀ ℕ, m = ofExponents e :=
  ⟨exponents n m, (ofExponents_exponents h).symm⟩

private theorem zipWith_ofExponents (f : ℕ → ℕ → ℕ) (d e : Fin n →₀ ℕ) :
    List.zipWith f (ofExponents d) (ofExponents e) = List.ofFn fun i => f (d i) (e i) := by
  apply List.ext_getElem
  · simp [ofExponents]
  · intro i _ _
    simp [ofExponents]

@[simp] theorem mul_ofExponents (d e : Fin n →₀ ℕ) :
    mul (ofExponents d) (ofExponents e) = ofExponents (d + e) :=
  zipWith_ofExponents _ d e

theorem mul_right_cancel {u v w : Monomial} (hu : u.length = n) (hv : v.length = n)
    (hw : w.length = n) (h : mul u w = mul v w) : u = v := by
  obtain ⟨d, rfl⟩ := exists_ofExponents hu
  obtain ⟨e, rfl⟩ := exists_ofExponents hv
  obtain ⟨k, rfl⟩ := exists_ofExponents hw
  rw [mul_ofExponents, mul_ofExponents, ofExponents_inj] at h
  rw [add_right_cancel h]

@[simp] theorem lcm_ofExponents (d e : Fin n →₀ ℕ) :
    lcm (ofExponents d) (ofExponents e) = ofExponents (d ⊔ e) :=
  zipWith_ofExponents _ d e

@[simp] theorem unit_eq_ofExponents : unit n = ofExponents (0 : Fin n →₀ ℕ) :=
  (List.ofFn_const n 0).symm

private theorem divides_ofFn (d e : Fin n → ℕ) :
    divides (List.ofFn d) (List.ofFn e) = true ↔ ∀ i, d i ≤ e i := by
  induction n with
  | zero => simp [divides]
  | succ n ih => simp [List.ofFn_succ, divides, ih, Fin.forall_fin_succ]

@[simp] theorem divides_ofExponents (d e : Fin n →₀ ℕ) :
    divides (ofExponents d) (ofExponents e) = decide (d ≤ e) := by
  rw [Bool.eq_iff_iff, decide_eq_true_eq]
  exact divides_ofFn d e

@[simp] theorem div?_ofExponents (d e : Fin n →₀ ℕ) :
    div? (ofExponents d) (ofExponents e) = if e ≤ d then some (ofExponents (d - e)) else none := by
  rw [div?, divides_ofExponents, zipWith_ofExponents]
  simp only [decide_eq_true_eq]
  rfl

theorem div?_eq_some_iff {m u v : Monomial} (hm : m.length = n) (hu : u.length = n) :
    div? m u = some v ↔ v.length = n ∧ mul u v = m := by
  obtain ⟨d, rfl⟩ := exists_ofExponents hm
  obtain ⟨e, rfl⟩ := exists_ofExponents hu
  rw [div?_ofExponents]
  constructor
  · intro hv
    obtain ⟨hle, hv⟩ := Option.ite_none_right_eq_some.mp hv
    obtain rfl := Option.some.inj hv
    rw [mul_ofExponents, add_tsub_cancel_of_le hle]
    exact ⟨length_ofExponents _, rfl⟩
  · rintro ⟨hv, hmul⟩
    obtain ⟨d', rfl⟩ := exists_ofExponents hv
    rw [mul_ofExponents, ofExponents_inj] at hmul
    rw [← hmul, if_pos le_self_add, add_tsub_cancel_left]

theorem div?_unit {m : Monomial} (hm : m.length = n) : div? m (unit n) = some m := by
  obtain ⟨d, rfl⟩ := exists_ofExponents hm
  rw [unit_eq_ofExponents, div?_ofExponents, if_pos zero_le, tsub_zero]

private theorem coprime_ofFn (d e : Fin n → ℕ) :
    coprime (List.ofFn d) (List.ofFn e) = true ↔ ∀ i, d i = 0 ∨ e i = 0 := by
  induction n with
  | zero => simp [coprime]
  | succ n ih => simp [List.ofFn_succ, coprime, ih, Fin.forall_fin_succ]

theorem sup_eq_add_of_coprime {d e : Fin n →₀ ℕ}
    (h : coprime (ofExponents d) (ofExponents e) = true) : d ⊔ e = d + e := by
  have hzero := (coprime_ofFn d e).mp h
  ext i
  have hi := hzero i
  simp only [Finsupp.sup_apply, Finsupp.add_apply]
  omega

end PolyIdeal.Monomial
