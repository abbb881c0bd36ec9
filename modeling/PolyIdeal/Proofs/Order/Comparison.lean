import PolyIdeal.Proofs.Order.Admissible

/-!
# Comparison of monomials

However an order is formed, it compares all monomials in a number of variables that it accepts, and
none in any other. The comparison is a total order that products respect, with the unit as its
minimum and without infinite descent.
-/

namespace PolyIdeal

namespace Monomial

private theorem toInts_mul (m₁ m₂ : Monomial) : mul m₁.toInts m₂.toInts = toInts (mul m₁ m₂) := by
  simp [mul, toInts, List.zipWith_map, List.map_zipWith]

private theorem totalDegree_toInts (m : Monomial) :
    totalDegree m.toInts = Int.ofNat (totalDegree m) := by
  induction m with
  | nil => rfl
  | cons a m ih =>
    simp only [totalDegree, toInts, List.map_cons, List.sum_cons] at ih ⊢
    rw [ih]
    rfl

private theorem getD_toInts (m : Monomial) (i : ℕ) :
    m.toInts.getD i 0 = Int.ofNat (m.getD i 0) := by
  rw [toInts, List.getD_eq_getElem?_getD, List.getD_eq_getElem?_getD, List.getElem?_map]
  cases m[i]? <;> rfl

private theorem toInts_lt_iff {m₁ m₂ : Monomial} : m₁.toInts < m₂.toInts ↔ m₁ < m₂ := by
  induction m₁ generalizing m₂ with
  | nil => cases m₂ <;> simp [toInts]
  | cons a m₁ ih =>
    cases m₂ with
    | nil => simp [toInts]
    | cons b m₂ =>
      have htail : toInts m₁ < toInts m₂ ↔ m₁ < m₂ := ih
      simp only [toInts, List.map_cons, List.cons_lt_cons_iff] at htail ⊢
      rw [htail]
      simp only [Int.ofNat_eq_natCast, Nat.cast_lt, Nat.cast_inj]

end Monomial

namespace Order

open Monomial

/-- Keys compare by their degrees, and by what is behind them if these are the same. -/
def Key.compare : Key → Key → Ordering
  | .exponents m₁, .exponents m₂ => if m₁ < m₂ then .lt else if m₂ < m₁ then .gt else .eq
  | .graded d₁ k₁, .graded d₂ k₂ =>
    if d₁ < d₂ then .lt else if d₂ < d₁ then .gt else k₁.compare k₂
  | .exponents _, .graded _ _ => .lt
  | .graded _ _, .exponents _ => .gt

private theorem compare_cons (a b : ℤ) (l l' : List ℤ) :
    (if a :: l < b :: l' then Ordering.lt else if b :: l' < a :: l then .gt else .eq) =
      if a < b then .lt else if b < a then .gt
      else if l < l' then .lt else if l' < l then .gt else .eq := by
  simp only [List.cons_lt_cons_iff]
  rcases lt_trichotomy a b with hlt | rfl | hgt
  · simp [hlt]
  · simp
  · simp [hgt, lt_asymm hgt, hgt.ne']

private theorem compare_gradedKey (order : Order) (m₁ m₂ : List ℤ) :
    (order.gradedKey m₁).compare (order.gradedKey m₂) = order.compare m₁ m₂ := by
  induction order with
  | lex => rfl
  | revlex => rfl
  | permuted p => rfl
  | degree base ih =>
    rw [compare] at ih ⊢
    rw [rank, rank, compare_cons, ← ih]
    rfl
  | degLex =>
    rw [compare, rank, rank, compare_cons]
    rfl

private theorem rank_toInts (order : Order) (m : Monomial) :
    order.rank m.toInts = toInts (order.rank m) := by
  induction order with
  | lex => rfl
  | revlex => exact (List.map_reverse ..).symm
  | permuted p =>
    simp only [rank, toInts, List.map_map]
    exact List.map_congr_left fun i _ => getD_toInts m i
  | degree base ih =>
    rw [rank, ih, totalDegree_toInts]
    rfl
  | degLex =>
    rw [rank, totalDegree_toInts]
    rfl

private theorem compare_toInts (order : Order) (m₁ m₂ : Monomial) :
    order.compare m₁.toInts m₂.toInts = order.compare m₁ m₂ := by
  rw [compare, rank_toInts, rank_toInts]
  simp only [toInts_lt_iff]
  rfl

/-- Two monomials are compared, with the outcome that their keys have. -/
def Compares (order : Order) (m₁ m₂ : Monomial) (c : Ordering) : Prop :=
  order.compare? m₁.toInts m₂.toInts = .ok c ∧
    (order.gradedKey m₁.toInts).compare (order.gradedKey m₂.toInts) = c

/-- What makes an order on the monomials in `n` variables admissible. -/
structure IsAdmissible (order : Order) (n : ℕ) : Prop where
  /-- Any two monomials are compared, and the other way round with the opposite outcome. -/
  oriented : ∀ m₁ m₂ : Monomial, m₁.length = n → m₂.length = n →
    ∃ c, order.Compares m₁ m₂ c ∧ order.Compares m₂ m₁ c.swap
  eq_iff : ∀ m₁ m₂ : Monomial, m₁.length = n → m₂.length = n →
    (order.Compares m₁ m₂ .eq ↔ m₁ = m₂)
  trans : ∀ m₁ m₂ m₃ : Monomial, m₁.length = n → m₂.length = n → m₃.length = n →
    order.Compares m₁ m₂ .lt → order.Compares m₂ m₃ .lt → order.Compares m₁ m₃ .lt
  /-- Multiplication by a third monomial does not change how two compare. -/
  mul : ∀ m₁ m₂ m : Monomial, m₁.length = n → m₂.length = n → m.length = n →
    ∀ c, order.Compares m₁ m₂ c → ∃ a b : Monomial, mul? m₁.toInts m.toInts = .ok a.toInts ∧
      mul? m₂.toInts m.toInts = .ok b.toInts ∧ order.Compares a b c
  unit_lt : ∀ m : Monomial, m.length = n → m ≠ unit n → order.Compares (unit n) m .lt
  no_descent : ∀ s : ℕ → Monomial, (∀ i, (s i).length = n) →
    ¬ ∀ i, order.Compares (s (i + 1)) (s i) .lt

variable {n : ℕ} {order : Order}

theorem accepts_of_check {m : Monomial} (h : order.check m.toInts = .ok ()) :
    order.accepts m.length = true := by
  by_contra hmisfit
  obtain ⟨images, hcheck⟩ := check_misfit hmisfit
  cases h.symm.trans hcheck

private theorem accepts_of_compares {m₁ m₂ : Monomial} {c : Ordering} (h : order.Compares m₁ m₂ c) :
    order.accepts m₁.length = true := by
  apply accepts_of_check
  replace h := h.1
  rw [compare?] at h
  cases hcheck : order.check m₁.toInts with
  | ok u => rfl
  | error e =>
    rw [hcheck] at h
    cases harity : checkArity m₁.toInts m₂.toInts <;> rw [harity] at h <;> cases h

section Accepted

variable (h : order.accepts n = true)

theorem compare_eq_cmp {d e : Fin n →₀ ℕ} : order.compare (ofExponents d) (ofExponents e) =
    cmp ((order.monomialOrder n h).toSyn d) ((order.monomialOrder n h).toSyn e) := by
  rw [compare]
  exact (if_congr (toSyn_lt_iff (h := h)) rfl (if_congr (toSyn_lt_iff (h := h)) rfl rfl)).symm

private theorem compares_ofExponents {d e : Fin n →₀ ℕ} {c : Ordering} :
    order.Compares (ofExponents d) (ofExponents e) c ↔
      cmp ((order.monomialOrder n h).toSyn d) ((order.monomialOrder n h).toSyn e) = c := by
  have harity : checkArity (ofExponents d).toInts (ofExponents e).toInts = .ok () := by
    rw [checkArity, if_pos (by simp)]
  rw [Compares, compare?, harity, check_toInts h (length_ofExponents d), compare_gradedKey,
    compare_toInts, compare_eq_cmp h]
  exact and_iff_right_of_imp (congrArg Except.ok)

theorem mul?_ofExponents (d e : Fin n →₀ ℕ) :
    mul? (ofExponents d).toInts (ofExponents e).toInts = .ok (ofExponents (d + e)).toInts := by
  rw [mul?, checkArity, if_pos (by simp), toInts_mul, mul_ofExponents]
  rfl

include h in
theorem isAdmissible_of_accepts : order.IsAdmissible n where
  oriented m₁ m₂ h₁ h₂ := by
    obtain ⟨d, rfl⟩ := exists_ofExponents h₁
    obtain ⟨e, rfl⟩ := exists_ofExponents h₂
    refine ⟨_, (compares_ofExponents h).mpr rfl, (compares_ofExponents h).mpr ?_⟩
    exact (cmp_swap _ _).symm
  eq_iff m₁ m₂ h₁ h₂ := by
    obtain ⟨d, rfl⟩ := exists_ofExponents h₁
    obtain ⟨e, rfl⟩ := exists_ofExponents h₂
    rw [compares_ofExponents h, cmp_eq_eq_iff, EmbeddingLike.apply_eq_iff_eq, ofExponents_inj]
  trans m₁ m₂ m₃ h₁ h₂ h₃ := by
    obtain ⟨d, rfl⟩ := exists_ofExponents h₁
    obtain ⟨e, rfl⟩ := exists_ofExponents h₂
    obtain ⟨f, rfl⟩ := exists_ofExponents h₃
    intro hde hef
    rw [compares_ofExponents h, cmp_eq_lt_iff] at hde hef ⊢
    exact hde.trans hef
  mul m₁ m₂ m h₁ h₂ hm c hc := by
    obtain ⟨d, rfl⟩ := exists_ofExponents h₁
    obtain ⟨e, rfl⟩ := exists_ofExponents h₂
    obtain ⟨u, rfl⟩ := exists_ofExponents hm
    refine ⟨_, _, mul?_ofExponents d u, mul?_ofExponents e u, ?_⟩
    rw [compares_ofExponents h] at hc ⊢
    rw [map_add, map_add, cmp_add_right, hc]
  unit_lt m hm hne := by
    obtain ⟨e, rfl⟩ := exists_ofExponents hm
    rw [unit_eq_ofExponents] at hne ⊢
    rw [compares_ofExponents h, cmp_eq_lt_iff]
    refine lt_of_le_of_ne ((order.monomialOrder n h).toSyn_monotone bot_le) ?_
    exact fun heq => hne (by rw [(order.monomialOrder n h).toSyn.injective heq])
  no_descent s hs hdescent := by
    have hlt (i : ℕ) : (order.monomialOrder n h).toSyn (exponents n (s (i + 1))) <
        (order.monomialOrder n h).toSyn (exponents n (s i)) := by
      rw [← cmp_eq_lt_iff, ← compares_ofExponents h, ofExponents_exponents (hs _),
        ofExponents_exponents (hs _)]
      exact hdescent i
    exact not_strictAnti_of_wellFoundedLT
      (fun i => (order.monomialOrder n h).toSyn (exponents n (s i))) (strictAnti_nat_of_succ_lt hlt)

end Accepted

/-- The orders are admissible on the arities that they accept, and on no others. -/
theorem isAdmissible_iff_accepts (order : Order) (n : ℕ) :
    order.IsAdmissible n ↔ order.accepts n = true := by
  refine ⟨fun h => ?_, isAdmissible_of_accepts⟩
  have hunit : (unit n).length = n := List.length_replicate
  obtain ⟨c, hc, -⟩ := h.oriented _ _ hunit hunit
  rw [← hunit]
  exact accepts_of_compares hc

end Order

end PolyIdeal
