import PolyIdeal.Monomial.Basic

/-!
# Coefficient tensors

A tensor holds one entry for each index below its shape, the last axis running fastest. Reading
beside the shape gives zero. The main statements say what `ofFn` and `accumulate` hold at an
index.
-/

namespace PolyIdeal

theorem length_flatMap_range {α : Type} (f : Nat → List α) (k n : Nat)
    (h : ∀ i, (f i).length = k) : ((List.range n).flatMap f).length = n * k := by
  induction n with
  | zero => simp
  | succ n ih => simp [List.range_succ, ih, h, Nat.succ_mul]

theorem getElem?_flatMap_range {α : Type} (f : Nat → List α) (k n : Nat)
    (h : ∀ i, (f i).length = k) {i j : Nat} (hi : i < n) (hj : j < k) :
    ((List.range n).flatMap f)[i * k + j]? = (f i)[j]? := by
  induction n with
  | zero => omega
  | succ n ih =>
    have len := length_flatMap_range f k n h
    rw [List.range_succ, List.flatMap_append]
    by_cases hin : i < n
    · rw [List.getElem?_append_left, ih hin]
      rw [len]
      have : (i + 1) * k ≤ n * k := Nat.mul_le_mul_right k hin
      rw [Nat.succ_mul] at this
      omega
    · obtain rfl : i = n := by omega
      rw [List.getElem?_append_right (by omega), len]
      simp

def volume : List Nat → Nat
  | [] => 1
  | n :: shape => n * volume shape

structure Tensor (R : Type) where
  shape : List Nat
  entries : Array R
  size_entries : entries.size = volume shape
  deriving DecidableEq

namespace Tensor

variable {R : Type}

/-- The indices below a shape in ascending order. -/
def indices : List Nat → List Monomial
  | [] => [[]]
  | n :: shape => (List.range n).flatMap fun i => (indices shape).map (i :: ·)

/-- Whether an index lies below a shape. -/
def inside : List Nat → Monomial → Bool
  | [], [] => true
  | n :: shape, i :: m => decide (i < n) && inside shape m
  | _, _ => false

/-- The place of an index among the entries. -/
def offset : List Nat → Monomial → Nat
  | _ :: shape, i :: m => i * volume shape + offset shape m
  | _, _ => 0

def get [Zero R] (t : Tensor R) (m : Monomial) : R :=
  if inside t.shape m then t.entries.getD (offset t.shape m) 0 else 0

@[simp] theorem length_indices (shape : List Nat) : (indices shape).length = volume shape := by
  induction shape with
  | nil => rfl
  | cons n shape ih =>
    rw [indices, volume]
    exact length_flatMap_range _ _ _ fun i => by simp [ih]

theorem mem_indices {shape : List Nat} {m : Monomial} :
    m ∈ indices shape ↔ inside shape m = true := by
  induction shape generalizing m with
  | nil => cases m <;> simp [indices, inside]
  | cons n shape ih =>
    cases m with
    | nil => simp [indices, inside]
    | cons i m => simp [indices, inside, ih]

theorem offset_lt {shape : List Nat} {m : Monomial} (h : inside shape m = true) :
    offset shape m < volume shape := by
  induction shape generalizing m with
  | nil => cases m <;> simp_all [inside, offset, volume]
  | cons n shape ih =>
    cases m with
    | nil => simp [inside] at h
    | cons i m =>
      simp only [inside, Bool.and_eq_true, decide_eq_true_eq] at h
      have := ih h.2
      have : (i + 1) * volume shape ≤ n * volume shape := Nat.mul_le_mul_right _ h.1
      rw [Nat.succ_mul] at this
      simp only [offset, volume]
      omega

theorem getElem?_indices {shape : List Nat} {m : Monomial} (h : inside shape m = true) :
    (indices shape)[offset shape m]? = some m := by
  induction shape generalizing m with
  | nil => cases m <;> simp_all [inside, offset, indices]
  | cons n shape ih =>
    cases m with
    | nil => simp [inside] at h
    | cons i m =>
      simp only [inside, Bool.and_eq_true, decide_eq_true_eq] at h
      rw [indices, offset, getElem?_flatMap_range _ (volume shape) n (by simp) h.1 (offset_lt h.2)]
      simp [ih h.2]

theorem offset_inj {shape : List Nat} {m m' : Monomial} (h : inside shape m = true)
    (h' : inside shape m' = true) (e : offset shape m = offset shape m') : m = m' := by
  have := getElem?_indices h
  rw [e, getElem?_indices h'] at this
  exact (Option.some.inj this).symm

theorem inside_length {shape : List Nat} {m : Monomial} (h : inside shape m = true) :
    m.length = shape.length := by
  induction shape generalizing m with
  | nil => cases m <;> simp_all [inside]
  | cons n shape ih =>
    cases m with
    | nil => simp [inside] at h
    | cons i m =>
      simp only [inside, Bool.and_eq_true] at h
      simp [ih h.2]

/-- The tensor with entry `f m` at each index `m`. -/
def ofFn (shape : List Nat) (f : Monomial → R) : Tensor R :=
  ⟨shape, ((indices shape).map f).toArray, by simp⟩

theorem get_ofFn [Zero R] (shape : List Nat) (f : Monomial → R) (m : Monomial) :
    (ofFn shape f).get m = if inside shape m then f m else 0 := by
  by_cases h : inside shape m = true
  · simp [get, ofFn, h, Array.getD_eq_getD_getElem?, getElem?_indices h]
  · simp [get, ofFn, h]

def zeros [Zero R] (shape : List Nat) : Tensor R :=
  ⟨shape, Array.replicate (volume shape) 0, by simp⟩

theorem get_zeros [Zero R] (shape : List Nat) (m : Monomial) :
    (zeros (R := R) shape).get m = 0 := by
  by_cases h : inside shape m = true
  · simp [get, zeros, h, Array.getD_eq_getD_getElem?, offset_lt h]
  · simp [get, zeros, h]

/-- Adds `c` to the entry at `m`. -/
def addAt [Add R] (t : Tensor R) (m : Monomial) (c : R) : Tensor R :=
  if inside t.shape m then
    ⟨t.shape, t.entries.modify (offset t.shape m) (· + c), by simp [t.size_entries]⟩
  else t

@[simp] theorem shape_addAt [Add R] (t : Tensor R) (m : Monomial) (c : R) :
    (t.addAt m c).shape = t.shape := by
  simp only [addAt]
  split <;> rfl

theorem get_addAt [Zero R] [Add R] (t : Tensor R) (u m : Monomial) (c : R)
    (h : inside t.shape u = true) :
    (t.addAt u c).get m = if m = u then t.get m + c else t.get m := by
  simp only [addAt, h, if_true, get]
  by_cases hm : inside t.shape m = true
  · have hlt := offset_lt hm
    rw [← t.size_entries] at hlt
    simp only [hm, if_true, Array.getD_eq_getD_getElem?, Array.getElem?_modify]
    by_cases e : m = u
    · subst e
      simp [hlt]
    · have : offset t.shape u ≠ offset t.shape m := fun e' => e (offset_inj hm h e'.symm)
      simp [this, e]
  · have : m ≠ u := by rintro rfl; exact hm h
    simp [hm, this]

/-- The sum of terms, each added at its index in turn. -/
def accumulate [Zero R] [Add R] (shape : List Nat) (terms : List (Monomial × R)) : Tensor R :=
  terms.foldl (fun t term => t.addAt term.1 term.2) (zeros shape)

theorem shape_accumulate [Zero R] [Add R] (shape : List Nat) (terms : List (Monomial × R)) :
    (accumulate shape terms).shape = shape := by
  have go (t : Tensor R) :
      (terms.foldl (fun t term => t.addAt term.1 term.2) t).shape = t.shape := by
    induction terms generalizing t with
    | nil => rfl
    | cons term terms ih => simp [ih]
  exact go _

/-- The indices with nonzero entries and the entries there, in ascending order. -/
def terms [Zero R] [DecidableEq R] (t : Tensor R) : List (Monomial × R) :=
  ((indices t.shape).map fun m => (m, t.get m)).filter fun term => term.2 ≠ 0

theorem mem_terms [Zero R] [DecidableEq R] {t : Tensor R} {m : Monomial} {c : R} :
    (m, c) ∈ t.terms ↔ t.get m = c ∧ c ≠ 0 := by
  simp only [terms, List.mem_filter, List.mem_map, Prod.mk.injEq, decide_not, Bool.not_eq_true',
    decide_eq_false_iff_not, ne_eq]
  constructor
  · rintro ⟨⟨m', _, rfl, h⟩, hc⟩
    exact ⟨h, hc⟩
  · rintro ⟨rfl, hc⟩
    refine ⟨⟨m, mem_indices.mpr ?_, rfl, rfl⟩, hc⟩
    by_cases h : inside t.shape m = true
    · exact h
    · exact absurd (by simp [get, h]) hc

/-- The smallest shape that holds some indices: on each of `rank` axes one more than the highest
exponent, and zero if there is none. -/
def covering (rank : Nat) (ms : List Monomial) : List Nat :=
  (List.range rank).map fun k => (ms.map fun m => m.getD k 0 + 1).foldl max 0

@[simp] theorem length_covering (rank : Nat) (ms : List Monomial) :
    (covering rank ms).length = rank := by
  simp [covering]

def extents [Zero R] [DecidableEq R] (t : Tensor R) : List Nat :=
  covering t.shape.length (t.terms.map Prod.fst)

/-- No axis can be shortened without losing a nonzero entry. -/
def IsTrimmed [Zero R] (t : Tensor R) : Prop :=
  ∀ k n : Nat, t.shape[k]? = some n → n ≠ 0 →
    ∃ m : List Nat, m[k]? = some (n - 1) ∧ t.get m ≠ 0

def trim [Zero R] [DecidableEq R] (t : Tensor R) : Tensor R :=
  ofFn t.extents t.get

private theorem le_foldl_max (l : List Nat) (a : Nat) :
    a ≤ l.foldl max a ∧ ∀ x ∈ l, x ≤ l.foldl max a := by
  induction l generalizing a with
  | nil => simp
  | cons b l ih =>
    have h := ih (max a b)
    simp only [List.foldl_cons, List.mem_cons, forall_eq_or_imp]
    exact ⟨by omega, by omega, h.2⟩

private theorem foldl_max_mem (l : List Nat) (a : Nat) :
    l.foldl max a = a ∨ l.foldl max a ∈ l := by
  induction l generalizing a with
  | nil => simp
  | cons b l ih =>
    simp only [List.foldl_cons, List.mem_cons]
    rcases ih (max a b) with h | h
    · rw [h]; omega
    · exact .inr (.inr h)

private theorem inside_of_forall {shape : List Nat} {m : Monomial}
    (hl : m.length = shape.length)
    (h : ∀ k n, shape[k]? = some n → m.getD k 0 < n) : inside shape m = true := by
  induction shape generalizing m with
  | nil => cases m <;> simp_all [inside]
  | cons n shape ih =>
    cases m with
    | nil => simp at hl
    | cons i m =>
      simp only [inside, Bool.and_eq_true, decide_eq_true_eq]
      refine ⟨by simpa using h 0 n rfl, ih (by simpa using hl) fun k n' hk => ?_⟩
      simpa using h (k + 1) n' (by simpa using hk)

theorem inside_covering {rank : Nat} {ms : List Monomial} {m : Monomial} (hl : m.length = rank)
    (hm : m ∈ ms) : inside (covering rank ms) m = true := by
  refine inside_of_forall (by simp [hl]) fun k n hk => ?_
  simp only [covering, List.getElem?_map, Option.map_eq_some_iff] at hk
  obtain ⟨k', hk', rfl⟩ := hk
  have : k' = k := by
    obtain ⟨_, h⟩ := List.getElem?_eq_some_iff.mp hk'
    simpa using h.symm
  subst this
  have := (le_foldl_max (ms.map fun m => m.getD k' 0 + 1) 0).2 (m.getD k' 0 + 1)
    (List.mem_map.mpr ⟨m, hm, rfl⟩)
  omega

theorem inside_of_get_ne_zero [Zero R] {t : Tensor R} {m : Monomial} (h : t.get m ≠ 0) :
    inside t.shape m = true := by
  by_cases hm : inside t.shape m = true
  · exact hm
  · exact absurd (by simp [get, hm]) h

theorem get_trim [Zero R] [DecidableEq R] (t : Tensor R) (m : Monomial) :
    t.trim.get m = t.get m := by
  rw [trim, get_ofFn]
  by_cases hm : t.get m = 0
  · simp [hm]
  · have hl := inside_length (inside_of_get_ne_zero hm)
    rw [if_pos]
    exact inside_covering hl (List.mem_map.mpr ⟨(m, t.get m), mem_terms.mpr ⟨rfl, hm⟩, rfl⟩)

theorem isTrimmed_trim [Zero R] [DecidableEq R] (t : Tensor R) : t.trim.IsTrimmed := by
  intro k n hk hn
  simp only [trim, ofFn, extents, covering, List.getElem?_map, Option.map_eq_some_iff] at hk
  obtain ⟨k', hk', rfl⟩ := hk
  obtain ⟨hlt, h⟩ := List.getElem?_eq_some_iff.mp hk'
  simp only [List.getElem_range] at h
  subst h
  simp only [List.length_range] at hlt
  rcases foldl_max_mem ((t.terms.map Prod.fst).map fun m => m.getD k 0 + 1) 0 with h | h
  · exact absurd h hn
  · obtain ⟨m, hm, e⟩ := List.mem_map.mp h
    obtain ⟨⟨m, c⟩, ht, rfl⟩ := List.mem_map.mp hm
    obtain ⟨rfl, hc⟩ := mem_terms.mp ht
    refine ⟨m, ?_, by rwa [get_trim]⟩
    have hl := inside_length (inside_of_get_ne_zero hc)
    rw [← e]
    have : k < m.length := by omega
    simp [List.getD_eq_getElem?_getD, List.getElem?_eq_getElem this]

theorem length_shape_trim [Zero R] [DecidableEq R] (t : Tensor R) :
    t.trim.shape.length = t.shape.length := by
  simp [trim, ofFn, extents]

end Tensor

end PolyIdeal
