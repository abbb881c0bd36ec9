import PolyIdeal.Proofs.Loop
import PolyIdeal.Proofs.Polynomial.Form

/-!
# Powers

Repeated squaring is a loop: its products may be refused, and nothing says beforehand how often it
turns. From every polynomial it comes to its end, with the product of `k` equal factors, so powers
obey the laws of exponents.
-/

namespace PolyIdeal.Polynomial

variable {R : Type} [CommRing R] [DecidableEq R] {n : ℕ} {p q r : Polynomial R}

/-- What repeated squaring has at the head of its loop. -/
structure Squaring (R : Type) [Zero R] where
  result : Polynomial R
  base : Polynomial R
  exponent : ℕ

/-- The product of `k` factors, taken one after the other. -/
def product (p : Polynomial R) : (k : ℕ) → Except Failure (Polynomial R)
  | 0 => .ok p.oneLike
  | k + 1 => do (← p.product k).mul p

/-- Whether a polynomial is kept in the way of `p` and stands for `F`. -/
structure KeptAs (p : Polynomial R) (F : MvPolynomial (Fin p.nvars) R) (q : Polynomial R) :
    Prop where
  isUnivariate_eq : q.isUnivariate = p.isUnivariate
  nvars_eq : q.nvars = p.nvars
  denote_eq : q.denote p.nvars = F

namespace KeptAs

variable {F G : MvPolynomial (Fin p.nvars) R}

private theorem self (p : Polynomial R) : p.KeptAs (p.denote p.nvars) p := ⟨rfl, rfl, rfl⟩

private theorem oneLike (p : Polynomial R) : p.KeptAs 1 p.oneLike := by
  obtain ⟨hn, hd⟩ := constantLike_spec (p := p) rfl 1
  exact ⟨isUnivariate_oneLike p, hn, hd.trans (map_one _)⟩

private theorem power (p : Polynomial R) (k : ℕ) : p.KeptAs (p.denote p.nvars ^ k) (p.power k) := by
  obtain ⟨⟨hn, hkind⟩, hd⟩ := power_kept (p := p) rfl k
  exact ⟨hkind, hn, hd⟩

private theorem mul (hq : p.KeptAs F q) (hr : p.KeptAs G r) :
    ∃ s, q.mul r = .ok s ∧ p.KeptAs (F * G) s := by
  obtain ⟨s, hs, hn, hd⟩ := mul_ok hq.nvars_eq hr.nvars_eq
  refine ⟨s, hs, (isUnivariate_of_combine hs).trans hq.isUnivariate_eq, hn, ?_⟩
  rw [hd, hq.denote_eq, hr.denote_eq]

theorem unique (hq : p.KeptAs F q) (hr : p.KeptAs F r) : q = r :=
  eq_of_denote (hq.isUnivariate_eq.trans hr.isUnivariate_eq.symm) hq.nvars_eq hr.nvars_eq
    (hq.denote_eq.trans hr.denote_eq.symm)

end KeptAs

namespace Squaring

variable {s : Squaring R} {F G : MvPolynomial (Fin p.nvars) R}

/-- One turn: for an odd exponent the base is multiplied onto the result, and it is squared then. -/
def next (s : Squaring R) : Except Failure (Option (Squaring R)) :=
  if s.exponent = 0 then .ok none
  else do
    let result ← if s.exponent % 2 = 1 then s.result.mul s.base else pure s.result
    let base ← s.base.mul s.base
    return some ⟨result, base, s.exponent / 2⟩

private theorem next_ok (hs : s.exponent ≠ 0) (hresult : p.KeptAs F s.result)
    (hbase : p.KeptAs G s.base) : ∃ s', s.next = .ok (some s') ∧ s'.exponent = s.exponent / 2 ∧
      p.KeptAs (F * G ^ (s.exponent % 2)) s'.result ∧ p.KeptAs (G * G) s'.base := by
  obtain ⟨base, hsquare, hbase'⟩ := hbase.mul hbase
  rw [next, if_neg hs]
  by_cases hodd : s.exponent % 2 = 1
  · obtain ⟨result, hmul, hresult'⟩ := hresult.mul hbase
    refine ⟨⟨result, base, s.exponent / 2⟩, ?_, rfl, ?_, hbase'⟩
    · rw [if_pos hodd, hmul, hsquare]
      rfl
    · rwa [hodd, pow_one]
  · refine ⟨⟨s.result, base, s.exponent / 2⟩, ?_, rfl, ?_, hbase'⟩
    · rw [if_neg hodd, hsquare]
      rfl
    · rwa [show s.exponent % 2 = 0 by omega, pow_zero, mul_one]

/-- The loop ends, with `result * base ^ exponent` as it was in the beginning. -/
private theorem loop (hresult : p.KeptAs F s.result) (hbase : p.KeptAs G s.base) :
    ∃ result base, Loop next s (.ok ⟨result, base, 0⟩) ∧ p.KeptAs (F * G ^ s.exponent) result := by
  induction hk : s.exponent using Nat.strongRecOn generalizing s F G with
  | _ k ih =>
    by_cases hs : s.exponent = 0
    · obtain ⟨result, base, exponent⟩ := s
      obtain rfl : exponent = 0 := hs
      rw [← hk, pow_zero, mul_one]
      exact ⟨result, base, .ends (if_pos rfl), hresult⟩
    · obtain ⟨s', hnext, hexponent, hresult', hbase'⟩ := next_ok hs hresult hbase
      obtain ⟨result, base, hloop, hkept⟩ := ih (k / 2) (by omega) hresult' hbase' (hk ▸ hexponent)
      refine ⟨result, base, .continues hnext hloop, ?_⟩
      have hsplit : F * G ^ (s.exponent % 2) * (G * G) ^ (k / 2) = F * G ^ k := by
        rw [hk, mul_assoc, ← sq, ← pow_mul, ← pow_add]
        congr 2
        omega
      rwa [hsplit] at hkept

end Squaring

private theorem product_ok (p : Polynomial R) (k : ℕ) :
    ∃ q, p.product k = .ok q ∧ p.KeptAs (p.denote p.nvars ^ k) q := by
  induction k with
  | zero => exact ⟨p.oneLike, rfl, pow_zero (p.denote p.nvars) ▸ .oneLike p⟩
  | succ k ih =>
    obtain ⟨q, hq, hkept⟩ := ih
    obtain ⟨r, hr, hkept'⟩ := hkept.mul (.self p)
    refine ⟨r, ?_, pow_succ (p.denote p.nvars) k ▸ hkept'⟩
    rw [product, hq]
    exact hr

/-- The powers of `p` are what repeated squaring ends with and what equal factors multiply to, and
obey the laws of exponents. -/
structure PowersBySquaring (p : Polynomial R) : Prop where
  loop : ∀ k, ∃ base, Loop Squaring.next ⟨p.oneLike, p, k⟩ (.ok ⟨p.power k, base, 0⟩)
  product : ∀ k, p.product k = .ok (p.power k)
  add : ∀ j k, (p.power j).mul (p.power k) = .ok (p.power (j + k))
  mul : ∀ j k, (p.power j).power k = p.power (j * k)

/-- Every polynomial has its powers by repeated squaring, whatever its ring and its form are. -/
theorem powersBySquaring (p : Polynomial R) : p.PowersBySquaring where
  loop k := by
    obtain ⟨result, base, hloop, hkept⟩ :=
      Squaring.loop (s := ⟨p.oneLike, p, k⟩) (.oneLike p) (.self p)
    rw [one_mul] at hkept
    obtain rfl := hkept.unique (.power p k)
    exact ⟨base, hloop⟩
  product k := by
    obtain ⟨q, hq, hkept⟩ := product_ok p k
    rw [hq, hkept.unique (.power p k)]
  add j k := by
    obtain ⟨r, hr, hkept⟩ := (KeptAs.power p j).mul (.power p k)
    rw [← pow_add] at hkept
    rw [hr, hkept.unique (.power p (j + k))]
  mul j k := by
    obtain ⟨hkind, hn, hd⟩ := KeptAs.power p j
    obtain ⟨⟨hn', hkind'⟩, hd'⟩ := power_kept hn k
    have hkept : p.KeptAs (p.denote p.nvars ^ (j * k)) ((p.power j).power k) :=
      ⟨hkind'.trans hkind, hn', by rw [hd', hd, pow_mul]⟩
    exact hkept.unique (.power p (j * k))

end PolyIdeal.Polynomial
