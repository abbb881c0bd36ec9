import PolyIdeal.Proofs.Monomial.Exponents
import PolyIdeal.Proofs.Multinomial.Coefficients
import PolyIdeal.Proofs.Traced

/-!
# Regions of tensors

Entries are read, written and combined only where there are any: an index beside the shape and a
block that does not fit are out of range. A tensor is known by its shape and its entries, and
trimming it never looks beside what is there.
-/

namespace PolyIdeal

namespace Tensor

variable {R : Type}

/-- Whether a block of a shape fits into another shape from an index on. -/
def fits : List ℕ → Monomial → List ℕ → Bool
  | [], [], [] => true
  | n :: shape, i :: u, k :: block => decide (i + k ≤ n) && fits shape u block
  | _, _, _ => false

private theorem fits_of_forall {shape block : List ℕ} {u : Monomial} (hu : u.length = shape.length)
    (hblock : block.length = shape.length)
    (h : ∀ k n i b : ℕ, shape[k]? = some n → u[k]? = some i → block[k]? = some b → i + b ≤ n) :
    fits shape u block = true := by
  induction shape generalizing u block with
  | nil =>
    obtain rfl := List.length_eq_zero_iff.mp hu
    obtain rfl := List.length_eq_zero_iff.mp hblock
    rfl
  | cons n shape ih =>
    obtain ⟨i, u, rfl⟩ := List.exists_cons_of_length_eq_add_one hu
    obtain ⟨b, block, rfl⟩ := List.exists_cons_of_length_eq_add_one hblock
    have htail := ih (Nat.succ_inj.mp hu) (Nat.succ_inj.mp hblock) fun k => h (k + 1)
    simpa [fits, htail] using h 0 n i b rfl rfl rfl

private theorem fits_unit {shape block : List ℕ} (hblock : block.length = shape.length)
    (h : ∀ k n b : ℕ, shape[k]? = some n → block[k]? = some b → b ≤ n) :
    fits shape (Monomial.unit block.length) block = true := by
  refine fits_of_forall (by simp [Monomial.unit, hblock]) hblock fun k n i b hn hi hb => ?_
  have hzero : i = 0 := List.eq_of_mem_replicate (List.mem_of_getElem? hi)
  have hle := h k n b hn hb
  omega

section Shapes

variable {s₁ s₂ : List ℕ} (hl : s₁.length = s₂.length)
include hl

theorem fits_max : fits (List.zipWith max s₁ s₂) (Monomial.unit s₁.length) s₁ = true ∧
    fits (List.zipWith max s₁ s₂) (Monomial.unit s₂.length) s₂ = true := by
  constructor
  · refine fits_unit (by simp [hl]) fun k n b hn hb => ?_
    obtain ⟨x, y, hx, -, rfl⟩ := List.getElem?_zipWith_eq_some.mp hn
    obtain rfl := Option.some.inj (hx.symm.trans hb)
    exact le_max_left x y
  · refine fits_unit (by simp [hl]) fun k n b hn hb => ?_
    obtain ⟨x, y, -, hy, rfl⟩ := List.getElem?_zipWith_eq_some.mp hn
    obtain rfl := Option.some.inj (hy.symm.trans hb)
    exact le_max_right x y

theorem fits_product {u : Monomial} (hu : inside s₁ u = true) :
    fits (List.zipWith (fun a b => a + b - 1) s₁ s₂) u s₂ = true := by
  have hlen := inside_length hu
  refine fits_of_forall (by simp [hlen, hl]) (by simp [hl]) fun k n i b hn hi hb => ?_
  obtain ⟨x, y, hx, hy, rfl⟩ := List.getElem?_zipWith_eq_some.mp hn
  obtain rfl := Option.some.inj (hy.symm.trans hb)
  have hlt := lt_of_inside hu hx hi
  omega

end Shapes

def map (f : R → R) (t : Tensor R) : Tensor R :=
  ⟨t.shape, t.entries.map f, by simp [t.size_entries]⟩

/-- A tensor with the terms that were read from it. -/
structure Indexed (R : Type) where
  tensor : Tensor R
  terms : List (Monomial × R)

section Access

variable [Zero R] (t : Tensor R)

/-- The entry at an index, which must lie below the shape. -/
def read? (m : Monomial) : Except Failure R :=
  if inside t.shape m then .ok (t.get m) else .error .outOfRange

/-- Sets the entry at an index, which must lie below the shape. -/
def write? (m : Monomial) (c : R) : Except Failure (Tensor R) :=
  if inside t.shape m then .ok (ofFn t.shape fun i => if i = m then c else t.get i)
  else .error .outOfRange

/-- Combines the entries from an index on with those of a block, which must fit there. -/
def combine? (op : R → R → R) (u : Monomial) (block : Tensor R) : Except Failure (Tensor R) :=
  if fits t.shape u block.shape then
    .ok (ofFn t.shape fun m =>
      match Monomial.div? m u with
      | some v => if inside block.shape v then op (t.get m) (block.get v) else t.get m
      | none => t.get m)
  else .error .outOfRange

/-- The beginning of a shape, which must fit. -/
def cut? (shape : List ℕ) : Except Failure (Tensor R) :=
  if fits t.shape (Monomial.unit shape.length) shape then .ok (ofFn shape t.get)
  else .error .outOfRange

/-- The tensor trimmed to what occurs, with the terms that are read from it. -/
def indexed? [DecidableEq R] : Except Failure (Indexed R) := do
  let tensor ← t.cut? t.extents
  let terms ← (t.terms.map Prod.fst).mapM fun m => return (m, ← tensor.read? m)
  return ⟨tensor, terms⟩

/-- The entry that a tensor moved to an index puts at a place. -/
def shifted (u m : Monomial) : R :=
  match Monomial.div? m u with
  | some v => t.get v
  | none => 0

end Access

variable [Zero R] {t : Tensor R}

theorem get_map {f : R → R} (hf : f 0 = 0) (m : Monomial) : (t.map f).get m = f (t.get m) := by
  by_cases hin : inside t.shape m = true
  · have hlt := offset_lt hin
    rw [← t.size_entries] at hlt
    rw [get, get, if_pos hin, if_pos (show inside (t.map f).shape m = true from hin)]
    simp [map, Array.getD_eq_getD_getElem?, hlt]
  · rw [get_eq_zero hin, hf, get_eq_zero (t := t.map f) hin]

theorem shifted_unit {n : ℕ} {m : Monomial} (hm : m.length = n) :
    t.shifted (Monomial.unit n) m = t.get m := by
  rw [shifted, Monomial.div?_unit hm]

theorem combine?_ok (op : R → R → R) {u : Monomial} (block : Tensor R)
    (hfits : fits t.shape u block.shape = true) (hop : ∀ m, op (t.get m) 0 = t.get m) :
    ∃ t', t.combine? op u block = .ok t' ∧ t'.shape = t.shape ∧
      ∀ m, inside t.shape m = true → t'.get m = op (t.get m) (block.shifted u m) := by
  refine ⟨_, if_pos hfits, rfl, fun m hm => ?_⟩
  rw [get_ofFn, if_pos hm, shifted]
  split
  · split
    · rfl
    · rename_i hout
      rw [get_eq_zero hout, hop]
  · exact (hop m).symm

theorem write?_ok {m : Monomial} (h : inside t.shape m = true) (c : R) :
    ∃ t', t.write? m c = .ok t' ∧ t'.shape = t.shape ∧
      ∀ i, t'.get i = if i = m then c else t.get i := by
  refine ⟨_, if_pos h, rfl, fun i => ?_⟩
  rw [get_ofFn]
  by_cases hi : inside t.shape i = true
  · rw [if_pos hi]
  · have hne : i ≠ m := by
      rintro rfl
      exact hi h
    rw [if_neg hi, if_neg hne, get_eq_zero hi]

section Trim

variable [DecidableEq R]

private theorem fits_extents : fits t.shape (Monomial.unit t.extents.length) t.extents = true := by
  have hlen : t.extents.length = t.shape.length := t.length_shape_trim
  refine fits_unit hlen fun k n b hn hb => ?_
  by_cases hb0 : b = 0
  · omega
  · -- A term reaches the end of the axis, and lies below the shape.
    obtain ⟨m, hm, hne⟩ := t.isTrimmed_trim k b hb hb0
    rw [get_trim] at hne
    have hlt := lt_of_inside (inside_of_get_ne_zero hne) hn hm
    omega

private theorem terms_trim (t : Tensor R) : t.trim.terms = t.terms := by
  refine eq_of_ascending t.trim.pairwise_terms t.pairwise_terms fun s => ?_
  rw [mem_terms, mem_terms, get_trim]

theorem indexed?_eq : t.indexed? = .ok ⟨t.trim, t.trim.terms⟩ := by
  have hread : (t.terms.map Prod.fst).mapM (fun m => do return (m, ← t.trim.read? m)) =
      .ok ((t.terms.map Prod.fst).map fun m => (m, t.get m)) := by
    apply mapM_ok
    intro m hm
    obtain ⟨⟨m, c⟩, hmem, rfl⟩ := List.mem_map.mp hm
    obtain ⟨hget, hne⟩ := mem_terms.mp hmem
    rw [← hget, ← get_trim] at hne
    rw [read?, if_pos (inside_of_get_ne_zero hne), get_trim]
    rfl
  have hmap : (t.terms.map Prod.fst).map (fun m => (m, t.get m)) = t.terms := by
    rw [List.map_map]
    refine (List.map_congr_left fun s hs => ?_).trans t.terms.map_id
    exact Prod.ext rfl (mem_terms.mp hs).1
  rw [indexed?, cut?, if_pos fits_extents]
  change (do
    let terms ← (t.terms.map Prod.fst).mapM fun m => return (m, ← t.trim.read? m)
    return (⟨t.trim, terms⟩ : Indexed R)) = _
  rw [hread, hmap, terms_trim]
  rfl

end Trim

end Tensor

end PolyIdeal
