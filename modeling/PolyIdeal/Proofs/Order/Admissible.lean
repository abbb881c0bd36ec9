import Mathlib.Data.Finsupp.MonomialOrder
import Mathlib.Data.List.Lex
import PolyIdeal.Order.WellFounded
import PolyIdeal.Proofs.Monomial.Exponents

/-!
# Admissibility of the monomial orders

The rank of a monomial is additive, so comparing ranks lexicographically respects products. Every
order that accepts `n` variables is thereby a monomial order on exponent vectors.
-/

namespace PolyIdeal.Order

open Monomial

variable {n : ℕ} {order : Order}

private theorem length_rank (order : Order) {m₁ m₂ : Monomial} (h : m₁.length = m₂.length) :
    (order.rank m₁).length = (order.rank m₂).length := by
  induction order with
  | lex => exact h
  | revlex => simpa [rank] using h
  | permuted p => simp [rank]
  | degree base ih => simpa [rank] using ih
  | degLex => simpa [rank] using h

private theorem getD_mul {m₁ m₂ : Monomial} (h : m₁.length = m₂.length) (i : ℕ) :
    (mul m₁ m₂).getD i 0 = m₁.getD i 0 + m₂.getD i 0 := by
  simp only [List.getD_eq_getElem?_getD, mul, List.getElem?_zipWith]
  rcases Nat.lt_or_ge i m₁.length with hi | hi
  · have hi' : i < m₂.length := h ▸ hi
    simp [hi, hi']
  · have hi' : m₂.length ≤ i := h ▸ hi
    simp [hi, hi']

private theorem totalDegree_mul {m₁ m₂ : Monomial} (h : m₁.length = m₂.length) :
    totalDegree (mul m₁ m₂) = totalDegree m₁ + totalDegree m₂ := by
  induction m₁ generalizing m₂ with
  | nil =>
    obtain rfl : m₂ = [] := List.length_eq_zero_iff.mp h.symm
    rfl
  | cons a m₁ ih =>
    cases m₂ with
    | nil => simp at h
    | cons b m₂ =>
      have hlen : m₁.length = m₂.length := by simpa using h
      have htail := ih hlen
      simp only [totalDegree, mul, List.zipWith_cons_cons, List.sum_cons] at htail ⊢
      omega

private theorem rank_mul (order : Order) {m₁ m₂ : Monomial} (h : m₁.length = m₂.length) :
    order.rank (mul m₁ m₂) = List.zipWith (· + ·) (order.rank m₁) (order.rank m₂) := by
  induction order with
  | lex => rfl
  | revlex => exact List.reverse_zipWith h
  | permuted p =>
    simp only [rank, List.zipWith_map, List.zipWith_self]
    exact List.map_congr_left fun i _ => getD_mul h i
  | degree base ih => simp [rank, ih, totalDegree_mul h]
  | degLex =>
    simp only [rank, totalDegree_mul h, List.zipWith_cons_cons]
    rfl

private theorem rank_add (order : Order) (d e : Fin n →₀ ℕ) :
    order.rank (ofExponents (d + e)) =
      List.zipWith (· + ·) (order.rank (ofExponents d)) (order.rank (ofExponents e)) := by
  rw [← mul_ofExponents, rank_mul order (by simp)]

private theorem mem_images {p : Permutation} {i : ℕ} (hi : i < p.images.length) :
    i ∈ p.images := by
  have hperm := List.isPerm_iff.mp p.isPerm
  exact hperm.mem_iff.mpr (List.mem_range.mpr hi)

theorem rank_injective (h : order.accepts n = true) {m₁ m₂ : Monomial} (h₁ : m₁.length = n)
    (h₂ : m₂.length = n) (hrank : order.rank m₁ = order.rank m₂) : m₁ = m₂ := by
  induction order with
  | lex => exact hrank
  | revlex => exact List.reverse_injective hrank
  | permuted p =>
    have hlen : p.images.length = n := by simpa [accepts, arrangement?] using h
    apply List.ext_getElem (h₁.trans h₂.symm)
    intro i hi₁ hi₂
    have hi : i ∈ p.images := mem_images (by omega)
    have hentry := List.map_inj_left.mp hrank i hi
    simpa [List.getD_eq_getElem?_getD, hi₁, hi₂] using hentry
  | degree base ih => exact ih h (List.cons.inj hrank).2
  | degLex => exact (List.cons.inj hrank).2

theorem check_toInts (h : order.accepts n = true) {m : Monomial} (hm : m.length = n) :
    order.check m.toInts = .ok () := by
  rw [check]
  cases ha : order.arrangement? with
  | none => rfl
  | some p =>
    have hlen : p.images.length = n := by simpa [accepts, ha] using h
    simp [hlen, hm]

theorem check_misfit {m : Monomial} (h : ¬ order.accepts m.length = true) :
    ∃ images, order.check m.toInts = .error (.invalid (.permutationMisfit images m.toInts)) := by
  rw [accepts] at h
  rw [check]
  cases ha : order.arrangement? with
  | none => simp [ha] at h
  | some p =>
    have hlength : p.images.length ≠ m.toInts.length := by simpa [ha] using h
    exact ⟨p.images, if_neg hlength⟩

private theorem zipWith_add_lt {a b c : List ℕ} (hac : a.length = c.length)
    (hbc : b.length = c.length) (h : a < b) :
    List.zipWith (· + ·) c a < List.zipWith (· + ·) c b := by
  induction c generalizing a b with
  | nil =>
    rw [List.length_eq_zero_iff.mp hac, List.length_eq_zero_iff.mp hbc] at h
    exact absurd h (List.lt_irrefl _)
  | cons z c ih =>
    cases a with
    | nil => simp at hac
    | cons x a =>
      cases b with
      | nil => simp at hbc
      | cons y b =>
        simp only [List.zipWith_cons_cons, List.cons_lt_cons_iff] at h ⊢
        rcases h with hxy | ⟨rfl, hab⟩
        · exact .inl (by omega)
        · exact .inr ⟨rfl, ih (by simpa using hac) (by simpa using hbc) hab⟩

private theorem le_zipWith_add {a b : List ℕ} (h : a.length = b.length) :
    ¬ List.zipWith (· + ·) a b < a := by
  induction a generalizing b with
  | nil => simp
  | cons x a ih =>
    cases b with
    | nil => simp at h
    | cons y b =>
      simp only [List.zipWith_cons_cons, List.cons_lt_cons_iff, not_or, not_and]
      exact ⟨by omega, fun _ => ih (by simpa using h)⟩

/-- The exponent vectors in `n` variables, compared by their ranks. -/
def Ranked (order : Order) (n : ℕ) (_ : order.accepts n = true) : Type := Fin n →₀ ℕ

namespace Ranked

variable {h : order.accepts n = true}

noncomputable instance : AddCommMonoid (Ranked order n h) :=
  inferInstanceAs (AddCommMonoid (Fin n →₀ ℕ))

def rank (e : Ranked order n h) : List ℕ := order.rank (ofExponents (show Fin n →₀ ℕ from e))

private theorem rank_injective : Function.Injective (rank : Ranked order n h → List ℕ) := by
  intro d e hrank
  exact ofExponents_injective (Order.rank_injective h (length_ofExponents _)
    (length_ofExponents _) hrank)

private theorem length_rank (d e : Ranked order n h) : d.rank.length = e.rank.length :=
  Order.length_rank order ((length_ofExponents _).trans (length_ofExponents _).symm)

private theorem rank_add (d e : Ranked order n h) :
    (d + e).rank = List.zipWith (· + ·) d.rank e.rank :=
  Order.rank_add order d e

instance : LinearOrder (Ranked order n h) := LinearOrder.lift' rank rank_injective

private theorem lt_iff {d e : Ranked order n h} : d < e ↔ d.rank < e.rank := Iff.rfl

instance : IsOrderedAddMonoid (Ranked order n h) where
  add_le_add_left d e hde c := by
    rcases hde.eq_or_lt with rfl | hlt
    · exact le_rfl
    · apply le_of_lt
      rw [add_comm d, add_comm e, lt_iff, rank_add, rank_add]
      exact zipWith_add_lt (length_rank _ _) (length_rank _ _) hlt

instance : WellFoundedLT (Ranked order n h) := by
  refine ⟨Subrelation.wf (fun {d e} hde => ?_) (InvImage.wf ofExponents order.below_wf)⟩
  exact .inr ⟨length_rank d e, hde⟩

private theorem le_add (d e : Ranked order n h) : d ≤ d + e := by
  rw [← not_lt, lt_iff, rank_add]
  exact le_zipWith_add (length_rank d e)

end Ranked

/-- An order that accepts `n` variables, as a monomial order on exponent vectors. -/
noncomputable def monomialOrder (order : Order) (n : ℕ) (h : order.accepts n = true) :
    MonomialOrder (Fin n) where
  syn := Ranked order n h
  toSyn := AddEquiv.refl _
  toSyn_monotone := by
    intro d e hde
    obtain ⟨c, rfl⟩ := exists_add_of_le hde
    exact Ranked.le_add d c

theorem toSyn_lt_iff {h : order.accepts n = true} {d e : Fin n →₀ ℕ} :
    (order.monomialOrder n h).toSyn d < (order.monomialOrder n h).toSyn e ↔
      order.rank (ofExponents d) < order.rank (ofExponents e) := Iff.rfl

theorem below_ofExponents {h : order.accepts n = true} {d e : Fin n →₀ ℕ} :
    order.Below (ofExponents d) (ofExponents e) ↔
      (order.monomialOrder n h).toSyn d < (order.monomialOrder n h).toSyn e := by
  have hlen : (order.rank (ofExponents d)).length = (order.rank (ofExponents e)).length :=
    length_rank order (by simp)
  rw [Below, ShortLex, toSyn_lt_iff]
  simp only [hlen, lt_irrefl, true_and, false_or]
  rfl

private theorem compare_eq_gt_iff (order : Order) {m₁ m₂ : Monomial} :
    order.compare m₁ m₂ = .gt ↔ order.rank m₂ < order.rank m₁ := by
  rw [compare]
  split
  · rename_i hlt
    simp [lt_asymm hlt]
  · split <;> simp_all

theorem compare_ofExponents {h : order.accepts n = true} {d e : Fin n →₀ ℕ} :
    order.compare (ofExponents d) (ofExponents e) = .gt ↔
      (order.monomialOrder n h).toSyn e < (order.monomialOrder n h).toSyn d := by
  rw [compare_eq_gt_iff, toSyn_lt_iff]

private theorem maxFrom_spec (order : Order) (m : Monomial) (ms : List Monomial) :
    order.maxFrom m ms ∈ m :: ms ∧
      ∀ x ∈ m :: ms, ¬ order.rank (order.maxFrom m ms) < order.rank x := by
  induction ms generalizing m with
  | nil => simp [maxFrom]
  | cons y ms ih =>
    simp only [maxFrom, List.foldl_cons] at ih ⊢
    by_cases hlt : order.rank m < order.rank y
    · rw [if_pos hlt]
      obtain ⟨hmem, hmax⟩ := ih y
      refine ⟨List.mem_cons_of_mem _ hmem, ?_⟩
      intro x hx
      rcases List.mem_cons.mp hx with rfl | hx
      · exact fun hx => hmax y (by simp) (lt_trans hx hlt)
      · exact hmax x hx
    · rw [if_neg hlt]
      obtain ⟨hmem, hmax⟩ := ih m
      refine ⟨?_, fun x hx => ?_⟩
      · rcases List.mem_cons.mp hmem with hm | hm
        · rw [hm]; simp
        · exact List.mem_cons_of_mem _ (List.mem_cons_of_mem _ hm)
      · simp only [List.mem_cons] at hx
        rcases hx with rfl | rfl | hx
        · exact hmax x (by simp)
        · exact fun hx => hlt (lt_of_le_of_lt (not_lt.mp (hmax m (by simp))) hx)
        · exact hmax x (List.mem_cons_of_mem _ hx)

theorem maxFrom_mem (order : Order) (m : Monomial) (ms : List Monomial) :
    order.maxFrom m ms ∈ m :: ms :=
  (maxFrom_spec order m ms).1

theorem rank_le_maxFrom {m : Monomial} {ms : List Monomial} {x : Monomial} (hx : x ∈ m :: ms) :
    order.rank x ≤ order.rank (order.maxFrom m ms) :=
  not_lt.mp ((maxFrom_spec order m ms).2 x hx)

/-- Sorting from the highest key to the lowest. -/
theorem pairwise_mergeSort_key {α : Type} (key : α → List ℕ) (l : List α) :
    (l.mergeSort fun a b => !decide (key a < key b)).Pairwise fun a b => key b ≤ key a := by
  have hsorted : (l.mergeSort fun a b => !decide (key a < key b)).Pairwise
      fun a b => (!decide (key a < key b)) = true := by
    apply List.pairwise_mergeSort
    · intro a b c hab hbc
      simp only [Bool.not_eq_true', decide_eq_false_iff_not, not_lt] at hab hbc ⊢
      exact le_trans hbc hab
    · intro a b
      simp only [Bool.or_eq_true, Bool.not_eq_true', decide_eq_false_iff_not, not_lt]
      exact le_total _ _
  apply hsorted.imp
  intro a b h
  simpa using h

theorem descending_perm (order : Order) (ms : List Monomial) :
    (order.descending ms).Perm ms :=
  List.mergeSort_perm ms _

theorem descending_pairwise (order : Order) (ms : List Monomial) :
    (order.descending ms).Pairwise fun a b => order.rank b ≤ order.rank a :=
  pairwise_mergeSort_key order.rank ms

theorem descending_strict (h : order.accepts n = true) {ms : List Monomial}
    (hl : ∀ m ∈ ms, m.length = n) (hnodup : ms.Nodup) :
    (order.descending ms).Pairwise fun a b => order.compare a b = .gt := by
  have hperm := order.descending_perm ms
  have hne := hperm.nodup_iff.mpr hnodup
  refine ((order.descending_pairwise ms).and hne).imp_of_mem fun {a b} ha hb hab => ?_
  rw [compare_eq_gt_iff]
  refine lt_of_le_of_ne hab.1 fun heq => hab.2 ?_
  exact (rank_injective h (hl b (hperm.subset hb)) (hl a (hperm.subset ha)) heq).symm

theorem descending_unique (h : order.accepts n = true) {ms l : List Monomial} (hperm : l.Perm ms)
    (hl : ∀ m ∈ l, m.length = n) (hsorted : l.Pairwise fun a b => order.rank b ≤ order.rank a) :
    order.descending ms = l := by
  have hdescending := (order.descending_perm ms).trans hperm.symm
  refine hdescending.eq_of_pairwise ?_ (order.descending_pairwise ms) hsorted
  intro a b ha hb hba hab
  exact rank_injective h (hl a (hdescending.subset ha)) (hl b hb) (le_antisymm hab hba)

end PolyIdeal.Order
