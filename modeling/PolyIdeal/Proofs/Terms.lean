import Mathlib.Algebra.BigOperators.Ring.List

/-!
# Sums of terms

A list of terms, each a coefficient at some place, adds up to one coefficient at every place.
-/

namespace PolyIdeal

variable {ι κ R : Type} [DecidableEq ι] [DecidableEq κ] [AddMonoid R]

theorem eq_of_ascending {α β : Type} [Preorder α] {l l' : List (α × β)}
    (hl : l.Pairwise fun s t => s.1 < t.1) (hl' : l'.Pairwise fun s t => s.1 < t.1)
    (hmem : ∀ t, t ∈ l ↔ t ∈ l') : l = l' := by
  have hnodup {l : List (α × β)} (hl : l.Pairwise fun s t => s.1 < t.1) : l.Nodup := by
    refine hl.imp ?_
    rintro s t hlt rfl
    exact lt_irrefl _ hlt
  have hperm := (List.perm_ext_iff_of_nodup (hnodup hl) (hnodup hl')).mpr hmem
  refine hperm.eq_of_pairwise ?_ hl hl'
  intro s t _ _ hlt hgt
  exact absurd hgt (lt_asymm hlt)

/-- The sum of the coefficients that terms have at a place. -/
def sumAt (terms : List (ι × R)) (i : ι) : R :=
  (terms.map fun t => if t.1 = i then t.2 else 0).sum

@[simp] theorem sumAt_nil (i : ι) : sumAt ([] : List (ι × R)) i = 0 := rfl

theorem sumAt_cons (t : ι × R) (terms : List (ι × R)) (i : ι) :
    sumAt (t :: terms) i = (if t.1 = i then t.2 else 0) + sumAt terms i := by
  simp [sumAt]

theorem sumAt_append (terms terms' : List (ι × R)) (i : ι) :
    sumAt (terms ++ terms') i = sumAt terms i + sumAt terms' i := by
  simp [sumAt]

theorem sumAt_perm {S : Type} [AddCommMonoid S] {terms terms' : List (ι × S)}
    (h : terms.Perm terms') (i : ι) : sumAt terms i = sumAt terms' i :=
  (h.map _).sum_eq

theorem sumAt_of_not_mem {terms : List (ι × R)} {i : ι} (h : ∀ c, (i, c) ∉ terms) :
    sumAt terms i = 0 := by
  induction terms with
  | nil => rfl
  | cons t terms ih =>
    have hne : t.1 ≠ i := by
      rintro rfl
      exact h t.2 (by simp)
    rw [sumAt_cons, if_neg hne, zero_add]
    exact ih fun c hc => h c (List.mem_cons_of_mem _ hc)

theorem sumAt_of_mem {terms : List (ι × R)} (hn : (terms.map Prod.fst).Nodup) {i : ι} {c : R}
    (h : (i, c) ∈ terms) : sumAt terms i = c := by
  induction terms with
  | nil => cases h
  | cons t terms ih =>
    rw [List.map_cons, List.nodup_cons] at hn
    rw [sumAt_cons]
    rcases List.mem_cons.mp h with rfl | h
    · rw [if_pos rfl, sumAt_of_not_mem, add_zero]
      intro d hd
      exact hn.1 (List.mem_map.mpr ⟨(i, d), hd, rfl⟩)
    · have hne : t.1 ≠ i := by
        rintro rfl
        exact hn.1 (List.mem_map.mpr ⟨_, h, rfl⟩)
      rw [if_neg hne, zero_add]
      exact ih hn.2 h

theorem sumAt_eq_zero {terms : List (ι × R)} (h : ∀ t ∈ terms, t.2 = 0) (i : ι) :
    sumAt terms i = 0 := by
  apply List.sum_eq_zero
  intro c hc
  obtain ⟨t, ht, rfl⟩ := List.mem_map.mp hc
  rw [h t ht, ite_self]

theorem sumAt_map {terms : List (ι × R)} {f : ι → κ} {i : ι}
    (h : ∀ t ∈ terms, f t.1 = f i → t.1 = i) :
    sumAt (terms.map fun t => (f t.1, t.2)) (f i) = sumAt terms i := by
  rw [sumAt, sumAt, List.map_map]
  congr 1
  apply List.map_congr_left
  intro t ht
  by_cases hi : t.1 = i
  · simp [hi]
  · have hf : f t.1 ≠ f i := fun hf => hi (h t ht hf)
    simp [hi, hf]

theorem sumAt_map_mul {S : Type} [NonUnitalNonAssocSemiring S] (terms : List (ι × S)) (c : S)
    (i : ι) : sumAt (terms.map fun t => (t.1, c * t.2)) i = c * sumAt terms i := by
  rw [sumAt, sumAt, List.map_map, ← List.sum_map_mul_left]
  congr 1
  apply List.map_congr_left
  intro t _
  rw [Function.comp_apply, mul_ite, mul_zero]

section InTurn

variable {ι κ R : Type} [DecidableEq ι] [DecidableEq κ] [Add R]

/-- The coefficient at a place after the addition of terms, one after the other. -/
def addedAt (a : R) (terms : List (ι × R)) (i : ι) : R :=
  terms.foldl (fun a t => if t.1 = i then a + t.2 else a) a

@[simp] theorem addedAt_nil (a : R) (i : ι) : addedAt a [] i = a := rfl

theorem addedAt_cons (a : R) (t : ι × R) (terms : List (ι × R)) (i : ι) :
    addedAt a (t :: terms) i = addedAt (if t.1 = i then a + t.2 else a) terms i := rfl

theorem addedAt_map {terms : List (ι × R)} {f : ι → κ} {i : ι}
    (h : ∀ t ∈ terms, f t.1 = f i → t.1 = i) (a : R) :
    addedAt a (terms.map fun t => (f t.1, t.2)) (f i) = addedAt a terms i := by
  induction terms generalizing a with
  | nil => rfl
  | cons t terms ih =>
    have hiff : f t.1 = f i ↔ t.1 = i := ⟨h t List.mem_cons_self, congrArg f⟩
    rw [List.map_cons, addedAt_cons, addedAt_cons, ih fun s hs => h s (List.mem_cons_of_mem t hs)]
    simp only [hiff]

theorem addedAt_of_not_mem {terms : List (ι × R)} {i : ι} (h : ∀ c, (i, c) ∉ terms) (a : R) :
    addedAt a terms i = a := by
  induction terms with
  | nil => rfl
  | cons t terms ih =>
    have hne : t.1 ≠ i := by
      rintro rfl
      exact h t.2 List.mem_cons_self
    rw [addedAt_cons, if_neg hne]
    exact ih fun c hc => h c (List.mem_cons_of_mem t hc)

theorem addedAt_of_mem {terms : List (ι × R)} (hn : (terms.map Prod.fst).Nodup) {i : ι} {c : R}
    (h : (i, c) ∈ terms) (a : R) : addedAt a terms i = a + c := by
  induction terms with
  | nil => cases h
  | cons t terms ih =>
    obtain ⟨ht, hn⟩ := List.nodup_cons.mp hn
    have hnone (d : R) : (t.1, d) ∉ terms := fun hd => ht (List.mem_map.mpr ⟨_, hd, rfl⟩)
    rw [addedAt_cons]
    rcases List.mem_cons.mp h with rfl | h
    · rw [if_pos rfl, addedAt_of_not_mem hnone]
    · have hne : t.1 ≠ i := by
        rintro rfl
        exact hnone c h
      rw [if_neg hne, ih hn h]

end InTurn

theorem addedAt_eq (a : R) (terms : List (ι × R)) (i : ι) :
    addedAt a terms i = a + sumAt terms i := by
  induction terms generalizing a with
  | nil => rw [addedAt_nil, sumAt_nil, add_zero]
  | cons t terms ih =>
    rw [addedAt_cons, ih, sumAt_cons, ← add_assoc]
    split
    · rfl
    · rw [add_zero]

end PolyIdeal
