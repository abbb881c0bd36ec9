import Mathlib.Algebra.Ring.Basic
import PolyIdeal.Proofs.Terms
import PolyIdeal.Univariate.Division

/-!
# Coefficients of polynomials in one variable

Zeros at the end of a coefficient list change no coefficient, so every operation can be read off
the lists before they are trimmed.
-/

namespace PolyIdeal

theorem foldl_max_le_iff {l : List ℕ} {a k : ℕ} : l.foldl max a ≤ k ↔ a ≤ k ∧ ∀ x ∈ l, x ≤ k := by
  induction l generalizing a with
  | nil => simp
  | cons b l ih =>
    rw [List.foldl_cons, ih, Nat.max_le, List.forall_mem_cons, and_assoc]

variable {R : Type}

section Places

variable [Zero R] [DecidableEq R]

private theorem getD_trimZeros (as : List R) (i : ℕ) : (trimZeros as).getD i 0 = as.getD i 0 := by
  induction as generalizing i with
  | nil => rfl
  | cons a as ih =>
    rw [trimZeros]
    split
    · rename_i hnil
      have htail (j : ℕ) : as.getD j 0 = 0 := by rw [← ih j, hnil]; rfl
      split
      · rename_i hzero
        cases i with
        | zero => exact hzero.symm
        | succ i => exact (htail i).symm
      · cases i with
        | zero => rfl
        | succ i => exact (htail i).symm
    · rename_i hcons
      cases i with
      | zero => rfl
      | succ i =>
        have := ih i
        rw [hcons] at this
        exact this

namespace Univariate

theorem coefficient_ofCoefficients (as : List R) (i : ℕ) :
    (ofCoefficients as).coefficient i = as.getD i 0 :=
  getD_trimZeros as i

theorem mem_terms {p : Univariate R} {m : Monomial} {c : R} :
    (m, c) ∈ p.terms ↔ ∃ i, m = [i] ∧ p.coefficient i = c ∧ c ≠ 0 := by
  simp only [terms, List.mem_filter, List.mem_map, Prod.exists, List.mem_zipIdx_iff_getElem?,
    Prod.mk.injEq, ne_eq, decide_not, Bool.not_eq_true', decide_eq_false_iff_not, coefficient,
    List.getD_eq_getElem?_getD]
  constructor
  · rintro ⟨⟨a, i, ha, rfl, rfl⟩, hne⟩
    exact ⟨i, rfl, by rw [ha]; rfl, hne⟩
  · rintro ⟨i, rfl, hi, hne⟩
    refine ⟨⟨c, i, ?_, rfl, rfl⟩, hne⟩
    cases ha : p.coefficients[i]? with
    | none =>
      rw [ha] at hi
      exact absurd hi.symm hne
    | some a =>
      rw [ha] at hi
      exact congrArg some hi

theorem pairwise_terms (p : Univariate R) : p.terms.Pairwise fun s t => s.1 < t.1 := by
  apply List.Pairwise.filter
  rw [List.pairwise_map]
  have hidx : (p.coefficients.zipIdx.map Prod.snd).Pairwise (· < ·) := by
    rw [List.zipIdx_map_snd]
    exact List.pairwise_lt_range'
  exact (List.pairwise_map.mp hidx).imp fun h => List.cons_lt_cons_iff.mpr (.inl h)

theorem isZero_iff {p : Univariate R} : p.isZero = true ↔ p.terms = [] := by
  constructor
  · intro h
    rw [terms, List.isEmpty_iff.mp h]
    rfl
  · intro h
    rw [isZero, List.isEmpty_iff]
    by_contra hne
    have hlast := List.getLast?_eq_some_getLast hne
    have hmem : ([p.coefficients.length - 1], p.coefficients.getLast hne) ∈ p.terms := by
      refine mem_terms.mpr ⟨_, rfl, ?_, ?_⟩
      · rw [coefficient, List.getD_eq_getElem?_getD, ← List.getLast?_eq_getElem?, hlast]
        rfl
      · intro hzero
        exact p.trimmed (hlast.trans (congrArg some hzero))
    rw [h] at hmem
    cases hmem

omit [DecidableEq R] in
theorem coefficient_size_sub_one {p : Univariate R} {c : R}
    (h : p.leadingCoefficient? = some c) : p.coefficient (p.size - 1) = c := by
  rw [leadingCoefficient?, List.getLast?_eq_getElem?] at h
  rw [coefficient, List.getD_eq_getElem?_getD, size, h]
  rfl

section Size

omit [DecidableEq R]

variable {p q : Univariate R}

theorem exists_leadingCoefficient (hp : p.isZero = false) :
    ∃ c, p.leadingCoefficient? = some c ∧ c ≠ 0 ∧ 0 < p.size := by
  have hne : p.coefficients ≠ [] := by
    intro hnil
    rw [isZero, hnil] at hp
    exact absurd hp (by simp)
  have hlast := List.getLast?_eq_some_getLast hne
  refine ⟨_, hlast, ?_, List.length_pos_iff.mpr hne⟩
  intro hzero
  exact p.trimmed (hlast.trans (congrArg some hzero))

theorem size_le_iff {k : ℕ} : p.size ≤ k ↔ ∀ i, k ≤ i → p.coefficient i = 0 := by
  constructor
  · intro hk i hi
    rw [coefficient, List.getD_eq_getElem?_getD, List.getElem?_eq_none (Nat.le_trans hk hi)]
    rfl
  · intro hzeros
    by_contra hlt
    have hp : p.isZero = false := by
      rw [isZero, List.isEmpty_eq_false_iff, ← List.length_pos_iff]
      exact Nat.lt_of_le_of_lt (Nat.zero_le k) (Nat.lt_of_not_le hlt)
    obtain ⟨c, hc, hne, hpos⟩ := exists_leadingCoefficient hp
    have hlast := hzeros (p.size - 1) (by omega)
    rw [coefficient_size_sub_one hc] at hlast
    exact hne hlast

theorem foldl_terms_eq_size [DecidableEq R] (p : Univariate R) :
    (p.terms.map fun t => Monomial.totalDegree t.1 + 1).foldl max 0 = p.size := by
  refine eq_of_forall_ge_iff fun k => ?_
  rw [foldl_max_le_iff, size_le_iff, and_iff_right (Nat.zero_le k), List.forall_mem_map]
  constructor
  · intro hterms i hi
    by_contra hne
    have hlt : i + 1 ≤ k := hterms ([i], p.coefficient i) (mem_terms.mpr ⟨i, rfl, rfl, hne⟩)
    omega
  · rintro hzeros ⟨m, c⟩ ht
    obtain ⟨i, rfl, hc, hne⟩ := mem_terms.mp ht
    by_contra hlt
    have hlt : ¬ i + 1 ≤ k := hlt
    exact hne (hc.symm.trans (hzeros i (by omega)))

theorem ext_coefficient (h : ∀ i, p.coefficient i = q.coefficient i) : p = q := by
  have hsize : p.size = q.size := by
    apply Nat.le_antisymm <;> apply size_le_iff.mpr <;> intro i hi
    · rw [h, size_le_iff.mp (Nat.le_refl q.size) i hi]
    · rw [← h, size_le_iff.mp (Nat.le_refl p.size) i hi]
  apply Univariate.ext
  apply List.ext_getElem hsize
  intro i hi hi'
  simpa [coefficient, List.getD_eq_getElem?_getD, hi, hi'] using h i

end Size

end Univariate

end Places

namespace Univariate

section Terms

variable [Zero R] [DecidableEq R] [Add R]

omit [DecidableEq R] in
private theorem getD_foldl_modify (terms : List (ℕ × R)) (as : List R)
    (h : ∀ t ∈ terms, t.1 < as.length) (i : ℕ) :
    (terms.foldl (fun as term => as.modify term.1 (· + term.2)) as).getD i 0 =
      addedAt (as.getD i 0) terms i := by
  induction terms generalizing as with
  | nil => rfl
  | cons t terms ih =>
    have ht : t.1 < as.length := h t (by simp)
    have hmodify : (as.modify t.1 (· + t.2)).getD i 0 =
        if t.1 = i then as.getD i 0 + t.2 else as.getD i 0 := by
      simp only [List.getD_eq_getElem?_getD, List.getElem?_modify]
      by_cases hi : t.1 = i
      · subst hi
        simp [ht]
      · simp [hi]
    rw [List.foldl_cons, ih, hmodify, addedAt_cons]
    intro s hs
    rw [List.length_modify]
    exact h s (List.mem_cons_of_mem _ hs)

theorem coefficient_ofTerms_eq_addedAt (terms : List (ℕ × R)) (i : ℕ) :
    (ofTerms terms).coefficient i = addedAt 0 terms i := by
  rw [ofTerms, coefficient_ofCoefficients, getD_foldl_modify]
  · simp only [List.getD_eq_getElem?_getD, List.getElem?_replicate]
    split <;> rfl
  · intro t ht
    rw [List.length_replicate]
    exact (foldl_max_le_iff.mp le_rfl).2 (t.1 + 1) (List.mem_map.mpr ⟨t, ht, rfl⟩)

end Terms

theorem coefficient_ofTerms [AddMonoid R] [DecidableEq R] (terms : List (ℕ × R)) (i : ℕ) :
    (ofTerms terms).coefficient i = sumAt terms i := by
  rw [coefficient_ofTerms_eq_addedAt, addedAt_eq, zero_add]

section Ring

variable [CommRing R] [DecidableEq R]

omit [DecidableEq R] in
private theorem getD_subCoefficients (as bs : List R) (i : ℕ) :
    (subCoefficients as bs).getD i 0 = as.getD i 0 - bs.getD i 0 := by
  induction as generalizing bs i with
  | nil =>
    rw [subCoefficients]
    simp only [List.getD_eq_getElem?_getD, List.getElem?_map, List.getElem?_nil]
    cases bs[i]? <;> simp
  | cons a as ih =>
    cases bs with
    | nil => simp [subCoefficients]
    | cons b bs =>
      cases i with
      | zero => rfl
      | succ i => exact ih bs i

theorem coefficient_sub (p q : Univariate R) (i : ℕ) :
    (p - q).coefficient i = p.coefficient i - q.coefficient i :=
  (coefficient_ofCoefficients _ i).trans (getD_subCoefficients _ _ i)

theorem coefficient_mulTerm (p : Univariate R) (k : ℕ) (c : R) (i : ℕ) :
    (p.mulTerm k c).coefficient i = if k ≤ i then c * p.coefficient (i - k) else 0 := by
  rw [mulTerm]
  split
  · rename_i hzero
    have hprod (j : ℕ) : c * p.coefficient j = 0 := by
      rcases hzero with hzero | rfl
      · rw [coefficient, List.isEmpty_iff.mp hzero]
        exact mul_zero c
      · exact zero_mul _
    rw [hprod, ite_self]
    rfl
  · rw [coefficient_ofCoefficients]
    simp only [List.getD_eq_getElem?_getD, List.getElem?_append, List.length_replicate]
    by_cases hik : i < k
    · simp [hik, Nat.not_le.mpr hik]
    · rw [if_neg hik, if_pos (Nat.le_of_not_lt hik), List.getElem?_map, coefficient,
        List.getD_eq_getElem?_getD]
      cases p.coefficients[i - k]? <;> simp

end Ring

end Univariate

end PolyIdeal
