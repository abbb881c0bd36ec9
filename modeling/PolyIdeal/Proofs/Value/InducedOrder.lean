import PolyIdeal.Proofs.Order.Induced
import PolyIdeal.Proofs.Order.Insertion
import PolyIdeal.Value.Leading

/-!
# The induced order on values

The order that a monomial order induces compares polynomials over any domains, as long as they are
in the same variables. It is a partial order up to equal supports, and what it leaves open is only
whether a polynomial is above a beginning of itself. Lists without such pairs can be sorted.
-/

namespace PolyIdeal

open AnyPolynomial Monomial

namespace Order

def Incomparable (order : Order) (p q : AnyPolynomial) : Prop :=
  p.isZero = false ∧ q.isZero = false ∧
    (ProperPrefix (order.descending p.polynomial.monomials)
        (order.descending q.polynomial.monomials) ∨
      ProperPrefix (order.descending q.polynomial.monomials)
        (order.descending p.polynomial.monomials))

/-- The failure that shows two polynomials with their monomials from the highest. -/
def incomparable (order : Order) (p q : AnyPolynomial) : Failure :=
  .incomparable p.text q.text ((order.descending p.polynomial.monomials).map toInts)
    ((order.descending q.polynomial.monomials).map toInts)

/-- What makes the comparison of polynomials in `n` variables a consistent partial one. -/
structure InducesComparison (order : Order) (n : ℕ) : Prop where
  /-- The comparison fails exactly for incomparable polynomials, and then both ways round. -/
  fails_iff : ∀ p q : AnyPolynomial, p.nvars = n → q.nvars = n →
    (p.compare (.given order) q = .error (order.incomparable p q) ↔ order.Incomparable p q) ∧
      (order.Incomparable p q → q.compare (.given order) p = .error (order.incomparable q p))
  oriented : ∀ p q : AnyPolynomial, p.nvars = n → q.nvars = n → ¬ order.Incomparable p q →
    ∃ c, p.compare (.given order) q = .ok c ∧ q.compare (.given order) p = .ok c.swap
  eq_iff : ∀ p q : AnyPolynomial, p.nvars = n → q.nvars = n →
    (p.compare (.given order) q = .ok .eq ↔
      ∀ m, m ∈ p.polynomial.monomials ↔ m ∈ q.polynomial.monomials)
  zero_lt : ∀ p q : AnyPolynomial, p.nvars = n → q.nvars = n → p.isZero = true →
    q.isZero = false → p.compare (.given order) q = .ok .lt
  /-- Two comparisons that do not rise make the third one, which falls if one of them does. -/
  trans : ∀ p q r : AnyPolynomial, p.nvars = n → q.nvars = n → r.nvars = n →
    ∀ c₁ c₂, p.compare (.given order) q = .ok c₁ → q.compare (.given order) r = .ok c₂ →
      c₁ ≠ .gt → c₂ ≠ .gt →
      ∃ c, p.compare (.given order) r = .ok c ∧ c ≠ .gt ∧ (c₁ = .lt ∨ c₂ = .lt → c = .lt)
  sorts : ∀ ps : List AnyPolynomial, (∀ p ∈ ps, p.nvars = n) →
    (∀ p ∈ ps, ∀ q ∈ ps, ∃ c, p.compare (.given order) q = .ok c) →
    ∃ qs, sorted (.given order) ps = .ok qs ∧ qs.Perm ps ∧
      qs.Pairwise fun p q => ∃ c, p.compare (.given order) q = .ok c ∧ c ≠ .gt

section

variable {n : ℕ} {order : Order} {p q r : AnyPolynomial}

private theorem Incomparable.symm (h : order.Incomparable p q) : order.Incomparable q p :=
  ⟨h.2.1, h.1, h.2.2.symm⟩

private theorem incomparable_iff : order.Incomparable p q ↔
    RunsOut (order.descending p.polynomial.monomials)
      (order.descending q.polynomial.monomials) :=
  runsOut_descending_iff.symm

variable (h : order.accepts n = true) (hp : p.nvars = n) (hq : q.nvars = n) (hr : r.nvars = n)

include h hp hq

private theorem incomparable_iff_ranks : order.Incomparable p q ↔
    RunsOut (order.ranks p.polynomial) (order.ranks q.polynomial) := by
  rw [incomparable_iff, ranks, ranks,
    runsOut_map_rank h (length_of_mem_descending hp) (length_of_mem_descending hq)]

private theorem compare_eq_error_iff :
    p.compare (.given order) q = .error (order.incomparable p q) ↔ order.Incomparable p q := by
  rw [incomparable_iff]
  exact comparePolynomials_eq_error_iff h hp hq

private theorem compare_eq_ok_iff {c : Ordering} : p.compare (.given order) q = .ok c ↔
    ¬ order.Incomparable p q ∧ c.Compares (order.ranks p.polynomial) (order.ranks q.polynomial) := by
  rw [incomparable_iff]
  exact comparePolynomials_eq_ok_iff h hp hq

private theorem exists_compare_ok (hpq : ¬ order.Incomparable p q) :
    ∃ c, p.compare (.given order) q = .ok c := by
  obtain ⟨c, hc, -⟩ := comparePolynomials_ok h hp hq (incomparable_iff.not.mp hpq)
  exact ⟨c, hc⟩

private theorem compare_zero_lt (hzero : p.isZero = true) (hne : q.isZero = false) :
    p.compare (.given order) q = .ok .lt := by
  have hpq : ¬ order.Incomparable p q := fun hpq => Bool.noConfusion (hpq.1.symm.trans hzero)
  rw [compare_eq_ok_iff h hp hq]
  refine ⟨hpq, ?_⟩
  have hnil : order.ranks p.polynomial = [] :=
    List.map_eq_nil_iff.mpr (descending_eq_nil_iff.mpr hzero)
  have hcons : order.ranks q.polynomial ≠ [] := by
    rw [ranks, Ne, List.map_eq_nil_iff, descending_eq_nil_iff]
    exact fun hzero => Bool.noConfusion (hne.symm.trans hzero)
  obtain ⟨m, ms, hms⟩ := List.exists_cons_of_ne_nil hcons
  rw [hnil, hms]
  exact List.nil_lt_cons m ms

include hr

theorem compare_trans {c₁ c₂ : Ordering} (h₁ : p.compare (.given order) q = .ok c₁)
    (h₂ : q.compare (.given order) r = .ok c₂) (hc₁ : c₁ ≠ .gt) (hc₂ : c₂ ≠ .gt) :
    ∃ c, p.compare (.given order) r = .ok c ∧ c ≠ .gt ∧
      (c₁ = .lt ∨ c₂ = .lt → c = .lt) := by
  obtain ⟨hpq, hranks₁⟩ := (compare_eq_ok_iff h hp hq).mp h₁
  obtain ⟨hqr, hranks₂⟩ := (compare_eq_ok_iff h hq hr).mp h₂
  have hle₁ : order.ranks p.polynomial ≤ order.ranks q.polynomial := hranks₁.ne_gt.mp hc₁
  have hle₂ : order.ranks q.polynomial ≤ order.ranks r.polynomial := hranks₂.ne_gt.mp hc₂
  have hpr : ¬ order.Incomparable p r := by
    rw [incomparable_iff_ranks h hp hq] at hpq
    rw [incomparable_iff_ranks h hq hr] at hqr
    rw [incomparable_iff_ranks h hp hr]
    exact not_runsOut_of_between hle₁ hle₂ hpq hqr
  obtain ⟨c, hc⟩ := exists_compare_ok h hp hr hpr
  have hranks := ((compare_eq_ok_iff h hp hr).mp hc).2
  refine ⟨c, hc, hranks.ne_gt.mpr (hle₁.trans hle₂), fun hlt => hranks.eq_lt.mpr ?_⟩
  rcases hlt with hlt | hlt
  · exact (hranks₁.eq_lt.mp hlt).trans_le hle₂
  · exact hle₁.trans_lt (hranks₂.eq_lt.mp hlt)

end

variable {n : ℕ} {order : Order}

/-- Where all pairs compare, they do so by their ranks, and these sort the list. -/
theorem sorted_ok (h : order.accepts n = true) {ps : List AnyPolynomial}
    (hn : ∀ p ∈ ps, p.nvars = n)
    (hps : ∀ p ∈ ps, ∀ q ∈ ps, ∃ c, p.compare (.given order) q = .ok c) :
    ∃ qs, sorted (.given order) ps = .ok qs ∧ qs.Perm ps ∧
      qs.Pairwise fun p q => ∃ c, p.compare (.given order) q = .ok c ∧ c ≠ .gt := by
  have hlt : Insertion.ComparesBy
      (fun p q => do return (← p.compare (.given order) q) == .lt)
      (fun p => order.ranks p.polynomial) {p | p ∈ ps} := by
    intro p hp q hq
    obtain ⟨c, hc⟩ := hps p hp q hq
    have hranks := ((compare_eq_ok_iff h (hn p hp) (hn q hq)).mp hc).2
    refine ⟨c == .lt, by simp only [hc]; rfl, ?_⟩
    rw [beq_iff_eq]
    exact hranks.eq_lt
  obtain ⟨qs, hsort, hperm, hasc⟩ := Insertion.sort_ok hlt fun p hp => hp
  refine ⟨qs, hsort, hperm, hasc.imp_of_mem fun {p q} hp hq hle => ?_⟩
  have hp' : p ∈ ps := hperm.subset hp
  have hq' : q ∈ ps := hperm.subset hq
  obtain ⟨c, hc⟩ := hps p hp' q hq'
  exact ⟨c, hc, ((compare_eq_ok_iff h (hn p hp') (hn q hq')).mp hc).2.ne_gt.mpr hle⟩

/-- Every order compares the polynomials in the variables that it accepts consistently. -/
theorem inducesComparison (h : order.accepts n = true) : order.InducesComparison n where
  fails_iff p q hp hq := ⟨compare_eq_error_iff h hp hq, fun hpq =>
    (compare_eq_error_iff h hq hp).mpr hpq.symm⟩
  oriented p q hp hq hpq := by
    obtain ⟨c, hc⟩ := exists_compare_ok h hp hq hpq
    have hranks := ((compare_eq_ok_iff h hp hq).mp hc).2
    refine ⟨c, hc, (compare_eq_ok_iff h hq hp).mpr ⟨fun hqp => hpq hqp.symm, hranks.swap⟩⟩
  eq_iff p q hp hq := by
    rw [compare_eq_ok_iff h hp hq, ← ranks_eq_iff h hp hq]
    refine and_iff_right_of_imp fun heq => ?_
    have hranks : order.ranks p.polynomial = order.ranks q.polynomial := heq
    rw [incomparable_iff_ranks h hp hq, hranks]
    exact not_runsOut_self _
  zero_lt p q hp hq := compare_zero_lt h hp hq
  trans p q r hp hq hr c₁ c₂ := compare_trans h hp hq hr
  sorts ps := sorted_ok h

theorem inducesComparison_degRevlex : degRevlex.InducesComparison 2 :=
  inducesComparison rfl

end Order

end PolyIdeal
