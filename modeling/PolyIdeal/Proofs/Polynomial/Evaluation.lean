import Mathlib.Algebra.BigOperators.Fin
import PolyIdeal.Proofs.Polynomial.Arithmetic

/-!
# Powers and values

Powers by repeated squaring are those of the polynomial ring. The value of a polynomial at a point is
that of the polynomial that it stands for, by Horner's scheme as by the sum of the terms.
-/

namespace PolyIdeal.Polynomial

open Monomial

section Squaring

variable {R M : Type} [Zero R] [CommMonoid M]
  {mul : Polynomial R → Polynomial R → Polynomial R} {Inv : Polynomial R → Prop}
  {value : Polynomial R → M}

/-- Repeated squaring multiplies by a power, whatever the products keep. -/
theorem powerOnto_spec
    (hmul : ∀ p q, Inv p → Inv q → Inv (mul p q) ∧ value (mul p q) = value p * value q)
    {acc base : Polynomial R} (hacc : Inv acc) (hbase : Inv base) (k : ℕ) :
    Inv (powerOnto mul acc base k) ∧
      value (powerOnto mul acc base k) = value acc * value base ^ k := by
  induction k using Nat.strongRecOn generalizing acc base with
  | _ k ih =>
    rw [powerOnto]
    by_cases hk : k = 0
    · rw [if_pos hk, hk, pow_zero, mul_one]
      exact ⟨hacc, rfl⟩
    rw [if_neg hk]
    -- The lowest digit decides whether the base is multiplied onto what is there.
    have hdigit : Inv (if k % 2 = 1 then mul acc base else acc) ∧
        value (if k % 2 = 1 then mul acc base else acc) = value acc * value base ^ (k % 2) := by
      split
      · rename_i hodd
        rw [hodd, pow_one]
        exact hmul acc base hacc hbase
      · rename_i heven
        rw [show k % 2 = 0 by omega, pow_zero, mul_one]
        exact ⟨hacc, rfl⟩
    have hsplit : value base ^ k =
        value base ^ (k % 2) * (value base * value base) ^ (k / 2) := by
      rw [← sq, ← pow_mul, ← pow_add]
      congr 1
      omega
    dsimp only
    split
    · rename_i hhalf
      rw [hsplit, hhalf, pow_zero, mul_one]
      exact hdigit
    · obtain ⟨hsquare, hvalue⟩ := hmul base base hbase hbase
      obtain ⟨hinv, heq⟩ := ih (k / 2) (by omega) hdigit.1 hsquare
      refine ⟨hinv, ?_⟩
      rw [heq, hdigit.2, hvalue, hsplit, mul_assoc]

end Squaring

section Power

variable {R : Type} [CommRing R] [DecidableEq R] {n : ℕ} {p q : Polynomial R}

/-- Whether a polynomial is kept as a coefficient list. -/
def isUnivariate : Polynomial R → Bool
  | univariate _ => true
  | multinomial _ => false

private theorem isUnivariate_mulLike (p q : Polynomial R) :
    (p.mulLike q).isUnivariate = p.isUnivariate := by
  cases p <;> cases q <;> rfl

theorem isUnivariate_oneLike (p : Polynomial R) : p.oneLike.isUnivariate = p.isUnivariate := by
  cases p <;> rfl

private theorem mul_eq_mulLike (hn : p.nvars = q.nvars) (hkind : p.isUnivariate = q.isUnivariate) :
    p.mul q = .ok (p.mulLike q) := by
  unfold mul combine
  rw [if_pos hn]
  cases p <;> cases q
  · rfl
  · cases hkind
  · cases hkind
  · rfl

theorem power_kept (hp : p.nvars = n) (k : ℕ) :
    ((p.power k).nvars = n ∧ (p.power k).isUnivariate = p.isUnivariate) ∧
      (p.power k).denote n = p.denote n ^ k := by
  -- All factors are kept in the way of `p`, and `mulLike` is the product of such polynomials only.
  have hmul (a b : Polynomial R) (ha : a.nvars = n ∧ a.isUnivariate = p.isUnivariate)
      (hb : b.nvars = n ∧ b.isUnivariate = p.isUnivariate) :
      ((a.mulLike b).nvars = n ∧ (a.mulLike b).isUnivariate = p.isUnivariate) ∧
        (a.mulLike b).denote n = a.denote n * b.denote n := by
    obtain ⟨r, hr, hrn, hrd⟩ := mul_ok ha.1 hb.1
    rw [mul_eq_mulLike (ha.1.trans hb.1.symm) (ha.2.trans hb.2.symm)] at hr
    obtain rfl := Except.ok.inj hr
    exact ⟨⟨hrn, (isUnivariate_mulLike a b).trans ha.2⟩, hrd⟩
  obtain ⟨hone, hdenote⟩ := constantLike_spec hp 1
  have hstart : p.oneLike.nvars = n ∧ p.oneLike.isUnivariate = p.isUnivariate :=
    ⟨hone, isUnivariate_oneLike p⟩
  obtain ⟨hkept, hd⟩ := powerOnto_spec hmul hstart ⟨hp, rfl⟩ k
  refine ⟨hkept, ?_⟩
  rw [power, hd, oneLike, hdenote, map_one, one_mul]

theorem isUnivariate_power (p : Polynomial R) (k : ℕ) :
    (p.power k).isUnivariate = p.isUnivariate :=
  (power_kept rfl k).1.2

theorem power_spec (hp : p.nvars = n) (k : ℕ) :
    (p.power k).nvars = n ∧ (p.power k).denote n = p.denote n ^ k :=
  ⟨(power_kept hp k).1.1, (power_kept hp k).2⟩

end Power

section Evaluation

variable {R : Type} [CommRing R] {n : ℕ}

theorem eval_horner (as : List R) (x : Fin 1 → R) :
    MvPolynomial.eval x (Univariate.horner as) = as.foldr (fun c r => r * x 0 + c) 0 := by
  induction as with
  | nil => simp
  | cons a as ih =>
    rw [Univariate.horner_cons, map_add, map_mul, MvPolynomial.eval_C, MvPolynomial.eval_X, ih,
      List.foldr_cons, add_comm, mul_comm]

private theorem foldl_powers (factors : List (R × ℕ)) (c : R) :
    factors.foldl (fun value (x, e) => if e = 0 then value else value * x ^ e) c =
      c * (factors.map fun t => t.1 ^ t.2).prod := by
  induction factors generalizing c with
  | nil => simp
  | cons t factors ih =>
    rw [List.foldl_cons, ih, List.map_cons, List.prod_cons, ← mul_assoc]
    congr 1
    dsimp only
    split
    · rename_i he
      rw [he, pow_zero, mul_one]
    · rfl

private theorem eval_term (x : Fin n → R) (d : Fin n →₀ ℕ) (c : R) :
    ((List.ofFn x).zip (ofExponents d)).foldl
        (fun value (x, e) => if e = 0 then value else value * x ^ e) c =
      MvPolynomial.eval x (MvPolynomial.monomial d c) := by
  have hpowers : ((List.ofFn x).zip (ofExponents d)).map (fun t => t.1 ^ t.2) =
      List.ofFn fun i => x i ^ d i := by
    apply List.ext_getElem <;> simp [ofExponents]
  rw [foldl_powers, hpowers, List.prod_ofFn, MvPolynomial.eval_monomial,
    Finsupp.prod_fintype _ _ fun i => pow_zero (x i)]

private theorem foldl_terms (x : Fin n → R) {terms : List (Monomial × R)}
    (hl : ∀ t ∈ terms, t.1.length = n) (sum : R) :
    terms.foldl (fun sum (m, c) => sum + ((List.ofFn x).zip m).foldl
        (fun value (x, e) => if e = 0 then value else value * x ^ e) c) sum =
      sum + MvPolynomial.eval x (sumOfTerms n terms) := by
  induction terms generalizing sum with
  | nil => simp [sumOfTerms]
  | cons t terms ih =>
    have htail := ih fun s hs => hl s (List.mem_cons_of_mem t hs)
    obtain ⟨m, c⟩ := t
    obtain ⟨d, rfl⟩ := exists_ofExponents (hl (m, c) List.mem_cons_self)
    rw [List.foldl_cons, htail]
    dsimp only
    rw [eval_term, sumOfTerms, sumOfTerms, List.map_cons, List.sum_cons, map_add,
      exponents_ofExponents, add_assoc]

theorem evaluate_eq [DecidableEq R] {p : Polynomial R} (hp : p.nvars = n) (x : Fin n → R) :
    p.evaluate (List.ofFn x) = MvPolynomial.eval x (p.denote n) := by
  cases p with
  | univariate p =>
    obtain rfl : n = 1 := hp.symm
    rw [denote_univariate, eval_horner]
    rfl
  | multinomial p =>
    have hlen (t : Monomial × R) (ht : t ∈ p.terms) : t.1.length = n :=
      (length_of_mem_terms (p := multinomial p) ht).trans hp
    exact (foldl_terms x hlen 0).trans (zero_add _)

end Evaluation

end PolyIdeal.Polynomial
