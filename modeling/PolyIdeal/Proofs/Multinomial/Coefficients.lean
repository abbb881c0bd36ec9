import Mathlib.Algebra.Ring.Basic
import Mathlib.Data.List.Lex
import Mathlib.Data.List.Nodup
import PolyIdeal.Multinomial.Arithmetic
import PolyIdeal.Proofs.Terms

/-!
# Coefficients of polynomials in several variables

What sums, differences, opposites, products and multiples by a term hold at a monomial, whatever the
shapes of the tensors are.
-/

namespace PolyIdeal

variable {R : Type}

namespace Tensor

variable [Zero R]

private theorem pairwise_indices (shape : List ℕ) : (indices shape).Pairwise (· < ·) := by
  induction shape with
  | nil => simp [indices]
  | cons n shape ih =>
    rw [indices, List.pairwise_flatMap]
    refine ⟨fun i _ => ?_, ?_⟩
    · rw [List.pairwise_map]
      exact ih.imp fun h => List.cons_lt_cons_iff.mpr (.inr ⟨rfl, h⟩)
    · apply List.pairwise_lt_range.imp
      intro i j hij m hi m' hj
      obtain ⟨m₁, -, rfl⟩ := List.mem_map.mp hi
      obtain ⟨m₂, -, rfl⟩ := List.mem_map.mp hj
      exact List.cons_lt_cons_iff.mpr (.inl hij)

theorem pairwise_terms [DecidableEq R] (t : Tensor R) :
    t.terms.Pairwise fun s s' => s.1 < s'.1 := by
  apply List.Pairwise.filter
  rw [List.pairwise_map]
  exact pairwise_indices t.shape

private theorem get_accumulate_eq_addedAt [Add R] {shape : List ℕ} {terms : List (Monomial × R)}
    (h : ∀ t ∈ terms, inside shape t.1 = true) (m : Monomial) :
    (accumulate shape terms).get m = addedAt 0 terms m := by
  have go (t : Tensor R) (ht : t.shape = shape) :
      (terms.foldl (fun t term => t.addAt term.1 term.2) t).get m =
        addedAt (t.get m) terms m := by
    induction terms generalizing t with
    | nil => rfl
    | cons term terms ih =>
      have hin : inside t.shape term.1 = true := ht ▸ h term (by simp)
      rw [List.foldl_cons, ih (fun s hs => h s (List.mem_cons_of_mem _ hs)) _ (by simp [ht]),
        get_addAt _ _ _ _ hin, addedAt_cons]
      simp only [eq_comm]
  rw [accumulate, go _ rfl, get_zeros]

theorem get_accumulate {S : Type} [AddMonoid S] {shape : List ℕ} {terms : List (Monomial × S)}
    (h : ∀ t ∈ terms, inside shape t.1 = true) (m : Monomial) :
    (accumulate shape terms).get m = sumAt terms m := by
  rw [get_accumulate_eq_addedAt h, addedAt_eq, zero_add]

theorem get_eq_zero {t : Tensor R} {m : Monomial} (h : inside t.shape m ≠ true) :
    t.get m = 0 := by
  by_contra hne
  exact h (inside_of_get_ne_zero hne)

private theorem inside_zipWith_max {s₁ s₂ : List ℕ} (hl : s₁.length = s₂.length) {m : Monomial}
    (h : inside s₁ m = true ∨ inside s₂ m = true) : inside (List.zipWith max s₁ s₂) m = true := by
  induction s₁ generalizing s₂ m with
  | nil =>
    obtain rfl : s₂ = [] := List.length_eq_zero_iff.mp hl.symm
    simpa using h
  | cons a s₁ ih =>
    cases s₂ with
    | nil => simp at hl
    | cons b s₂ =>
      cases m with
      | nil => simp [inside] at h
      | cons i m =>
        simp only [inside, List.zipWith_cons_cons, Bool.and_eq_true, decide_eq_true_eq] at h ⊢
        refine ⟨by omega, ih (by simpa using hl) ?_⟩
        exact h.imp And.right And.right

private theorem inside_zipWith_product {s₁ s₂ : List ℕ} {u v : Monomial} (hu : inside s₁ u = true)
    (hv : inside s₂ v = true) (hl : s₁.length = s₂.length) :
    inside (List.zipWith (fun a b => a + b - 1) s₁ s₂) (Monomial.mul u v) = true := by
  induction s₁ generalizing s₂ u v with
  | nil =>
    obtain rfl : s₂ = [] := List.length_eq_zero_iff.mp hl.symm
    cases u <;> simp_all [inside, Monomial.mul]
  | cons a s₁ ih =>
    cases s₂ with
    | nil => simp at hl
    | cons b s₂ =>
      cases u with
      | nil => simp [inside] at hu
      | cons i u =>
        cases v with
        | nil => simp [inside] at hv
        | cons j v =>
          simp only [inside, Monomial.mul, List.zipWith_cons_cons, Bool.and_eq_true,
            decide_eq_true_eq] at hu hv ⊢
          exact ⟨by omega, ih hu.2 hv.2 (by simpa using hl)⟩

private theorem inside_zipWith_add {u shape : List ℕ} (hl : u.length = shape.length) {m : Monomial}
    (h : inside shape m = true) :
    inside (List.zipWith (· + ·) u shape) (Monomial.mul m u) = true := by
  induction shape generalizing u m with
  | nil =>
    obtain rfl : u = [] := List.length_eq_zero_iff.mp hl
    cases m <;> simp_all [inside, Monomial.mul]
  | cons a shape ih =>
    cases u with
    | nil => simp at hl
    | cons b u =>
      cases m with
      | nil => simp [inside] at h
      | cons i m =>
        simp only [inside, Monomial.mul, List.zipWith_cons_cons, Bool.and_eq_true,
          decide_eq_true_eq] at h ⊢
        exact ⟨by omega, ih (by simpa using hl) h.2⟩

theorem lt_of_inside {shape : List ℕ} {m : Monomial} (h : inside shape m = true) {k n i : ℕ}
    (hn : shape[k]? = some n) (hi : m[k]? = some i) : i < n := by
  induction shape generalizing m k with
  | nil => simp at hn
  | cons a shape ih =>
    cases m with
    | nil => simp at hi
    | cons b m =>
      simp only [inside, Bool.and_eq_true, decide_eq_true_eq] at h
      cases k with
      | zero =>
        obtain rfl := Option.some.inj hn
        obtain rfl := Option.some.inj hi
        exact h.1
      | succ k => exact ih h.2 hn hi

section Extensionality

private theorem offset_getElem {shape : List ℕ} {i : ℕ} (hi : i < (indices shape).length) :
    offset shape (indices shape)[i] = i := by
  have hin := mem_indices.mp (List.getElem_mem hi)
  have hget := getElem?_indices hin
  obtain ⟨hlt, hget⟩ := List.getElem?_eq_some_iff.mp hget
  have hnodup : (indices shape).Nodup := (pairwise_indices shape).imp fun h => ne_of_lt h
  exact hnodup.getElem_inj_iff.mp hget

variable {R : Type} [Zero R]

private theorem ofFn_get (t : Tensor R) : ofFn t.shape t.get = t := by
  obtain ⟨shape, entries, hsize⟩ := t
  rw [ofFn, Tensor.mk.injEq]
  refine ⟨rfl, Array.ext (by simp [hsize]) fun i hi hi' => ?_⟩
  have hlt : i < (indices shape).length := by simpa using hi
  have hin := mem_indices.mp (List.getElem_mem hlt)
  rw [List.getElem_toArray, List.getElem_map, get, if_pos hin, offset_getElem]
  exact Array.getElem_eq_getD 0 |>.symm

theorem ext_get {s t : Tensor R} {shape : List ℕ} (hs : s.shape = shape) (ht : t.shape = shape)
    (hget : ∀ m, inside shape m = true → s.get m = t.get m) : s = t := by
  have heq : s.get = t.get := by
    funext m
    by_cases hin : inside shape m = true
    · exact hget m hin
    · rw [get, get, hs, ht, if_neg hin, if_neg hin]
  rw [← ofFn_get s, ← ofFn_get t, hs, ht, heq]

/-- No axis of a trimmed tensor is longer than that of another with the same entries. -/
private theorem le_of_isTrimmed {s t : Tensor R} (hs : s.IsTrimmed) (hget : ∀ m, s.get m = t.get m)
    {k a b : ℕ} (ha : s.shape[k]? = some a) (hb : t.shape[k]? = some b) : a ≤ b := by
  by_cases hzero : a = 0
  · exact hzero ▸ Nat.zero_le b
  · obtain ⟨m, hm, hne⟩ := hs k a ha hzero
    rw [hget] at hne
    have := lt_of_inside (inside_of_get_ne_zero hne) hb hm
    omega

private theorem ext_of_isTrimmed {s t : Tensor R} (hs : s.IsTrimmed) (ht : t.IsTrimmed)
    (hrank : s.shape.length = t.shape.length) (hget : ∀ m, s.get m = t.get m) : s = t := by
  have hshape : s.shape = t.shape := by
    apply List.ext_getElem hrank
    intro k hk hk'
    apply Nat.le_antisymm
    · exact le_of_isTrimmed hs hget (List.getElem?_eq_getElem hk) (List.getElem?_eq_getElem hk')
    · exact le_of_isTrimmed ht (fun m => (hget m).symm) (List.getElem?_eq_getElem hk')
        (List.getElem?_eq_getElem hk)
  exact ext_get hshape rfl fun m _ => hget m

end Extensionality

end Tensor

namespace Multinomial

section Places

variable [Zero R] [DecidableEq R]

@[simp] theorem nvars_ofTensor (t : Tensor R) (h : t.shape ≠ []) :
    (ofTensor t h).nvars = t.shape.length :=
  t.length_shape_trim

omit [DecidableEq R] in
theorem length_of_coefficient_ne_zero {p : Multinomial R} {m : Monomial}
    (h : p.coefficient m ≠ 0) : m.length = p.nvars :=
  Tensor.inside_length (Tensor.inside_of_get_ne_zero h)

theorem mem_terms {p : Multinomial R} {m : Monomial} {c : R} :
    (m, c) ∈ p.terms ↔ p.coefficient m = c ∧ c ≠ 0 :=
  Tensor.mem_terms

theorem get_ne_zero_of_mem_terms {p : Multinomial R} {t : Monomial × R}
    (ht : t ∈ p.terms) : p.tensor.get t.1 ≠ 0 := by
  obtain ⟨hcoeff, hne⟩ := mem_terms.mp ht
  rw [← hcoeff] at hne
  exact hne

theorem pairwise_terms (p : Multinomial R) : p.terms.Pairwise fun s t => s.1 < t.1 :=
  Tensor.pairwise_terms p.tensor

omit [DecidableEq R] in
theorem ext_coefficient {p q : Multinomial R} (hn : p.nvars = q.nvars)
    (h : ∀ m, p.coefficient m = q.coefficient m) : p = q :=
  Multinomial.ext (Tensor.ext_of_isTrimmed p.trimmed q.trimmed hn h)

@[simp] theorem nvars_ofTerms [Add R] (nvars : ℕ) (h : 0 < nvars) (terms : List (Monomial × R)) :
    (ofTerms nvars h terms).nvars = nvars := by
  rw [ofTerms, nvars_ofTensor, Tensor.shape_accumulate, Tensor.length_covering]

theorem coefficient_ofTerms_eq_addedAt [Add R] {nvars : ℕ} (h : 0 < nvars)
    {terms : List (Monomial × R)} (hl : ∀ t ∈ terms, t.1.length = nvars) (m : Monomial) :
    (ofTerms nvars h terms).coefficient m = addedAt 0 terms m := by
  rw [ofTerms, coefficient_ofTensor, Tensor.get_accumulate_eq_addedAt]
  intro t ht
  exact Tensor.inside_covering (hl t ht) (List.mem_map.mpr ⟨t, ht, rfl⟩)

end Places

variable [CommRing R] [DecidableEq R]

theorem coefficient_ofTerms {nvars : ℕ} (h : 0 < nvars) {terms : List (Monomial × R)}
    (hl : ∀ t ∈ terms, t.1.length = nvars) (m : Monomial) :
    (ofTerms nvars h terms).coefficient m = sumAt terms m := by
  rw [coefficient_ofTerms_eq_addedAt h hl, addedAt_eq, zero_add]

section Entrywise

variable {p q : Multinomial R} (h : p.nvars = q.nvars)
include h

omit [DecidableEq R] in
theorem length_zipWith_shape (f : ℕ → ℕ → ℕ) :
    (List.zipWith f p.tensor.shape q.tensor.shape).length = p.nvars := by
  rw [List.length_zipWith]
  change min p.nvars q.nvars = _
  omega

@[simp] theorem nvars_add : (p + q).nvars = p.nvars :=
  (nvars_ofTensor _ _).trans (length_zipWith_shape h max)

@[simp] theorem nvars_sub : (p - q).nvars = p.nvars :=
  (nvars_ofTensor _ _).trans (length_zipWith_shape h max)

omit [DecidableEq R] in
private theorem get_ofFn_max (op : R → R → R) (hop : op 0 0 = 0) (m : Monomial) :
    (Tensor.ofFn (List.zipWith max p.tensor.shape q.tensor.shape) fun m =>
      op (p.coefficient m) (q.coefficient m)).get m = op (p.coefficient m) (q.coefficient m) := by
  rw [Tensor.get_ofFn]
  split
  · rfl
  · rename_i hout
    have hp : p.coefficient m = 0 :=
      Tensor.get_eq_zero fun hin => hout (Tensor.inside_zipWith_max h (.inl hin))
    have hq : q.coefficient m = 0 :=
      Tensor.get_eq_zero fun hin => hout (Tensor.inside_zipWith_max h (.inr hin))
    rw [hp, hq, hop]

theorem coefficient_add (m : Monomial) :
    (p + q).coefficient m = p.coefficient m + q.coefficient m :=
  (coefficient_ofTensor _ _ m).trans (get_ofFn_max h (· + ·) (add_zero 0) m)

theorem coefficient_sub (m : Monomial) :
    (p - q).coefficient m = p.coefficient m - q.coefficient m :=
  (coefficient_ofTensor _ _ m).trans (get_ofFn_max h (· - ·) (sub_zero 0) m)

end Entrywise

@[simp] theorem nvars_neg (p : Multinomial R) : (-p).nvars = p.nvars :=
  nvars_ofTensor _ _

theorem coefficient_neg (p : Multinomial R) (m : Monomial) :
    (-p).coefficient m = -p.coefficient m := by
  refine (coefficient_ofTensor _ _ m).trans ((Tensor.get_ofFn _ _ m).trans ?_)
  split
  · rfl
  · rename_i hout
    have hp : p.coefficient m = 0 := Tensor.get_eq_zero hout
    rw [hp, neg_zero]

@[simp] theorem nvars_mulTerm (p : Multinomial R) (u : Monomial) (h : u.length = p.nvars) (c : R) :
    (p.mulTerm u h c).nvars = p.nvars := by
  rw [mulTerm]
  split
  · exact nvars_ofTerms _ _ _
  · rw [nvars_ofTensor, Tensor.shape_accumulate, List.length_zipWith, h]
    exact Nat.min_self p.nvars

theorem inside_mul_of_mem_terms {p : Multinomial R} {u : Monomial} (h : u.length = p.nvars)
    {s : Monomial × R} (hs : s ∈ p.terms) :
    Tensor.inside (List.zipWith (· + ·) u p.tensor.shape) (Monomial.mul s.1 u) = true :=
  Tensor.inside_zipWith_add h (Tensor.inside_of_get_ne_zero (get_ne_zero_of_mem_terms hs))

theorem coefficient_mulTerm (p : Multinomial R) {u : Monomial} (h : u.length = p.nvars) (c : R)
    (m : Monomial) :
    (p.mulTerm u h c).coefficient m =
      sumAt (p.terms.map fun t => (Monomial.mul t.1 u, c * t.2)) m := by
  rw [mulTerm]
  split
  · rename_i hzero
    rw [zeroLike, coefficient_ofTerms _ (by simp), sumAt_nil]
    rcases hzero with hzero | rfl
    · rw [List.isEmpty_iff.mp hzero]
      rfl
    · symm
      apply sumAt_eq_zero
      intro t ht
      obtain ⟨s, -, rfl⟩ := List.mem_map.mp ht
      exact zero_mul _
  · rw [coefficient_ofTensor, Tensor.get_accumulate]
    intro t ht
    obtain ⟨s, hs, rfl⟩ := List.mem_map.mp ht
    exact inside_mul_of_mem_terms h hs

@[simp] theorem nvars_mul {p q : Multinomial R} (h : p.nvars = q.nvars) :
    (p * q).nvars = p.nvars := by
  change (if p.isZero || q.isZero then p.zeroLike else ofTensor _ _).nvars = _
  split
  · exact nvars_ofTerms _ _ _
  · rw [nvars_ofTensor, Tensor.shape_accumulate]
    exact length_zipWith_shape h _

theorem inside_productTerms {p q : Multinomial R} (h : p.nvars = q.nvars) :
    ∀ t ∈ productTerms p q, Tensor.inside
      (List.zipWith (fun a b => a + b - 1) p.tensor.shape q.tensor.shape) t.1 = true := by
  intro t ht
  obtain ⟨s, hs, hst⟩ := List.mem_flatMap.mp ht
  obtain ⟨s', hs', rfl⟩ := List.mem_map.mp hst
  exact Tensor.inside_zipWith_product
    (Tensor.inside_of_get_ne_zero (get_ne_zero_of_mem_terms hs))
    (Tensor.inside_of_get_ne_zero (get_ne_zero_of_mem_terms hs')) h

theorem coefficient_mul {p q : Multinomial R} (h : p.nvars = q.nvars) (m : Monomial) :
    (p * q).coefficient m = sumAt (productTerms p q) m := by
  change (if p.isZero || q.isZero then p.zeroLike else ofTensor _ _).coefficient m = _
  split
  · rename_i hzero
    have hnone : productTerms p q = [] := by
      rw [Bool.or_eq_true] at hzero
      rcases hzero with hzero | hzero
      · rw [productTerms, List.isEmpty_iff.mp hzero]
        rfl
      · rw [productTerms, List.isEmpty_iff.mp hzero]
        simp
    rw [zeroLike, coefficient_ofTerms _ (by simp), hnone]
  · rw [coefficient_ofTensor, Tensor.get_accumulate (inside_productTerms h)]

end Multinomial

end PolyIdeal
