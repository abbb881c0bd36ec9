import Mathlib.Order.Bounds.Defs
import PolyIdeal.Proofs.Polynomial.Denotation
import PolyIdeal.Proofs.Tensor.Region

/-!
# How polynomials are stored

A coefficient list ends in a coefficient other than zero, and a tensor reaches on every axis to the
highest exponent that occurs and no further. Whatever list or tensor a polynomial is made of, the
same is stored for it, and its terms are the stored coefficients other than zero.
-/

namespace PolyIdeal

variable {R : Type} [Zero R] [DecidableEq R]

namespace Tensor

variable {t : Tensor R} {m : Monomial} {c : R}

omit [Zero R] [DecidableEq R] in
theorem ext_entries {s t : Tensor R} (hshape : s.shape = t.shape)
    (hentries : s.entries = t.entries) : s = t := by
  obtain ⟨shape, entries, hsize⟩ := s
  obtain rfl : shape = t.shape := hshape
  obtain rfl : entries = t.entries := hentries
  rfl

omit [DecidableEq R] in
private theorem getElem?_entries (h : inside t.shape m = true) :
    t.entries[offset t.shape m]? = some (t.get m) := by
  have hlt := offset_lt h
  rw [← t.size_entries] at hlt
  rw [get, if_pos h, Array.getElem?_eq_getElem hlt, Array.getElem_eq_getD 0]

private theorem mem_terms_iff_entries : (m, c) ∈ t.terms ↔
    inside t.shape m = true ∧ t.entries[offset t.shape m]? = some c ∧ c ≠ 0 := by
  rw [mem_terms]
  constructor
  · rintro ⟨rfl, hne⟩
    have hin := inside_of_get_ne_zero hne
    exact ⟨hin, getElem?_entries hin, hne⟩
  · rintro ⟨hin, hentry, hne⟩
    rw [getElem?_entries hin] at hentry
    exact ⟨Option.some.inj hentry, hne⟩

private theorem inside_of_mem_terms {s : Monomial × R} (hs : s ∈ t.terms) :
    inside t.shape s.1 = true :=
  (mem_terms_iff_entries.mp hs).1

private theorem isGreatest_of_isTrimmed (ht : t.IsTrimmed) {k e : ℕ}
    (hk : t.shape[k]? = some (e + 1)) : IsGreatest {i | ∃ s ∈ t.terms, s.1[k]? = some i} e := by
  constructor
  · obtain ⟨m, hm, hne⟩ := ht k (e + 1) hk (Nat.succ_ne_zero e)
    exact ⟨(m, t.get m), mem_terms.mpr ⟨rfl, hne⟩, hm⟩
  · rintro i ⟨s, hs, hi⟩
    exact Nat.le_of_lt_succ (lt_of_inside (inside_of_mem_terms hs) hk hi)

private theorem shape_of_terms_eq_nil (ht : t.IsTrimmed) (hnil : t.terms = []) :
    t.shape = List.replicate t.shape.length 0 := by
  refine List.eq_replicate_iff.mpr ⟨rfl, fun n hn => ?_⟩
  obtain ⟨k, hk⟩ := List.mem_iff_getElem?.mp hn
  by_contra hne
  obtain ⟨m, -, hm⟩ := ht k n hk hne
  have hmem : (m, t.get m) ∈ t.terms := mem_terms.mpr ⟨rfl, hm⟩
  rw [hnil] at hmem
  cases hmem

private theorem ne_zero_of_terms_ne_nil (hne : t.terms ≠ []) {k n : ℕ} (hk : t.shape[k]? = some n) :
    n ≠ 0 := by
  obtain ⟨s, hs⟩ := List.exists_mem_of_ne_nil _ hne
  have hin := inside_of_mem_terms hs
  have hlt : k < s.1.length := by
    rw [inside_length hin]
    exact (List.getElem?_eq_some_iff.mp hk).1
  have := lt_of_inside hin hk (List.getElem?_eq_getElem hlt)
  omega

end Tensor

namespace Univariate

/-- How the coefficients of `f` are stored: without zeros at the end, whatever list they come from,
and with an ascending term for each that is not zero. -/
structure IsCanonical (f : Univariate R) : Prop where
  last_ne_zero : ∀ c, f.coefficients.getLast? = some c → c ≠ 0
  mem_terms : ∀ m c, (m, c) ∈ f.terms ↔ ∃ i, m = [i] ∧ f.coefficients[i]? = some c ∧ c ≠ 0
  ascending : f.terms.Pairwise fun s t => s.1 < t.1
  stored : ∀ cs : List R, (∀ i, cs.getD i 0 = f.coefficient i) → ofCoefficients cs = f

omit [DecidableEq R] in
private theorem getElem?_coefficients {f : Univariate R} {i : ℕ} {c : R} (hc : c ≠ 0) :
    f.coefficients[i]? = some c ↔ f.coefficient i = c := by
  rw [coefficient, List.getD_eq_getElem?_getD]
  cases f.coefficients[i]? with
  | none => simp [hc.symm]
  | some a => simp

theorem ofCoefficients_eq {f : Univariate R} {cs : List R}
    (h : ∀ i, cs.getD i 0 = f.coefficient i) : ofCoefficients cs = f :=
  ext_coefficient fun i => (coefficient_ofCoefficients cs i).trans (h i)

theorem isCanonical (f : Univariate R) : f.IsCanonical where
  last_ne_zero := by
    rintro c hc rfl
    exact f.trimmed hc
  mem_terms m c := by
    rw [Univariate.mem_terms]
    refine exists_congr fun i => and_congr_right fun _ => and_congr_left fun hne => ?_
    exact (getElem?_coefficients hne).symm
  ascending := f.pairwise_terms
  stored _ := ofCoefficients_eq

end Univariate

namespace Multinomial

/-- How the coefficients of `F` are stored: in a tensor of no length on any axis if there are none,
and otherwise with one place more than the highest exponent; with an ascending term for each entry
that is not zero; and so from every tensor that has the coefficients, however large. -/
structure IsCanonical (F : Multinomial R) : Prop where
  shape_of_isZero : F.isZero = true → F.tensor.shape = List.replicate F.nvars 0
  axis : F.isZero = false → ∀ k n : ℕ, F.tensor.shape[k]? = some n →
    ∃ e, n = e + 1 ∧ IsGreatest {i | ∃ s ∈ F.terms, s.1[k]? = some i} e
  mem_terms : ∀ m c, (m, c) ∈ F.terms ↔ Tensor.inside F.tensor.shape m = true ∧
    F.tensor.entries[Tensor.offset F.tensor.shape m]? = some c ∧ c ≠ 0
  ascending : F.terms.Pairwise fun s t => s.1 < t.1
  stored : ∀ t : Tensor R, t.shape.length = F.nvars → (∀ m, t.get m = F.coefficient m) →
    t.indexed? = .ok ⟨F.tensor, F.terms⟩

theorem ofTensor_eq {F : Multinomial R} {t : Tensor R} (hrank : t.shape.length = F.nvars)
    (h : t.shape ≠ []) (hget : ∀ m, t.get m = F.coefficient m) : ofTensor t h = F :=
  ext_coefficient ((nvars_ofTensor t h).trans hrank) fun m =>
    (coefficient_ofTensor t h m).trans (hget m)

theorem isCanonical (F : Multinomial R) : F.IsCanonical where
  shape_of_isZero hzero := Tensor.shape_of_terms_eq_nil F.trimmed (List.isEmpty_iff.mp hzero)
  axis hzero k n hk := by
    have hne := Tensor.ne_zero_of_terms_ne_nil (List.isEmpty_eq_false_iff.mp hzero) hk
    obtain ⟨e, rfl⟩ := Nat.exists_eq_succ_of_ne_zero hne
    exact ⟨e, rfl, Tensor.isGreatest_of_isTrimmed F.trimmed hk⟩
  mem_terms _ _ := Tensor.mem_terms_iff_entries
  ascending := F.pairwise_terms
  stored t hrank hget := by
    have hne : t.shape ≠ [] := List.ne_nil_of_length_pos (hrank ▸ F.nvars_pos)
    rw [← ofTensor_eq hrank hne hget]
    exact Tensor.indexed?_eq

end Multinomial

namespace Polynomial

variable [Add R]

theorem ofTermsLike_eq {p : Polynomial R} {terms : List (Monomial × R)}
    (hl : ∀ t ∈ terms, t.1.length = p.nvars)
    (h : ∀ m : Monomial, m.length = p.nvars → addedAt 0 terms m = p.coefficient m) :
    p.ofTermsLike terms = p := by
  have hcoeff (m : Monomial) (hm : m.length = p.nvars) :
      (p.ofTermsLike terms).coefficient m = p.coefficient m :=
    (coefficient_ofTermsLike_eq_addedAt p hl hm).trans (h m hm)
  cases p with
  | univariate f =>
    exact congrArg univariate (Univariate.ext_coefficient fun i => hcoeff [i] rfl)
  | multinomial F =>
    refine congrArg multinomial (Multinomial.ext_coefficient (Multinomial.nvars_ofTerms _ _ _)
      fun m => ?_)
    by_cases hm : m.length = F.nvars
    · exact hcoeff m hm
    · have hm' : m.length ≠ ((multinomial F).ofTermsLike terms).nvars := fun heq =>
        hm (heq.trans (nvars_ofTermsLike _ _))
      exact (coefficient_of_length_ne hm').trans
        (coefficient_of_length_ne (p := multinomial F) hm).symm

end Polynomial

end PolyIdeal
