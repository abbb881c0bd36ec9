import Mathlib.Algebra.Order.BigOperators.Group.List
import Mathlib.Data.Finset.Sort
import Mathlib.Data.List.Permutation
import Mathlib.Data.Set.Card
import PolyIdeal.Proofs.Traced
import PolyIdeal.Random.Ideal

/-!
# Stars and bars

Every monomial is the gaps between cuts of which there is only one ascending list, so sets of cuts
correspond to the monomials of bounded total degree. Each of these comes from as many samples as
there are orders of its cuts: a source that draws samples evenly draws monomials evenly.
-/

namespace PolyIdeal

open Monomial

/-- Whether places are some different ones, `count` in all, of a sequence of the given length. -/
structure IsSample (length count : ℕ) (places : List ℕ) : Prop where
  length_eq : places.length = count
  nodup : places.Nodup
  lt : ∀ i ∈ places, i < length

/-- The monomials in `n` variables of total degree at most `d`. -/
def boundedMonomials (n d : ℕ) : Set Monomial :=
  {m | m.length = n ∧ totalDegree m ≤ d}

/-- The ascending cuts from a place on with given gaps. -/
def cutsFrom (start : ℕ) : Monomial → List ℕ
  | [] => []
  | e :: m => (start + e) :: cutsFrom (start + e + 1) m

section Cuts

variable {start : ℕ} {m m' : Monomial} {cuts : List ℕ}

@[simp] theorem length_cutsFrom (start : ℕ) (m : Monomial) :
    (cutsFrom start m).length = m.length := by
  induction m generalizing start with
  | nil => rfl
  | cons e m ih => rw [cutsFrom, List.length_cons, List.length_cons, ih]

private theorem le_of_mem_cutsFrom {c : ℕ} (h : c ∈ cutsFrom start m) : start ≤ c := by
  induction m generalizing start with
  | nil => cases h
  | cons e m ih =>
    rcases List.mem_cons.mp h with rfl | h
    · exact Nat.le_add_right start e
    · have := ih h
      omega

private theorem pairwise_cutsFrom (start : ℕ) (m : Monomial) :
    (cutsFrom start m).Pairwise (· < ·) := by
  induction m generalizing start with
  | nil => exact .nil
  | cons e m ih => exact .cons (fun c hc => le_of_mem_cutsFrom hc) (ih _)

private theorem exists_cutsFrom (hcuts : cuts.Pairwise (· < ·)) (hstart : ∀ c ∈ cuts, start ≤ c) :
    ∃ m, cuts = cutsFrom start m := by
  induction cuts generalizing start with
  | nil => exact ⟨[], rfl⟩
  | cons c cuts ih =>
    obtain ⟨hc, hcuts⟩ := List.pairwise_cons.mp hcuts
    obtain ⟨m, rfl⟩ := ih hcuts fun a ha => Nat.succ_le_of_lt (hc a ha)
    refine ⟨(c - start) :: m, ?_⟩
    have hle := hstart c List.mem_cons_self
    rw [cutsFrom, Nat.add_sub_cancel' hle]

private theorem forall_mem_cutsFrom_lt {bound : ℕ} (h : start ≤ bound) :
    (∀ c ∈ cutsFrom start m, c < bound) ↔ start + totalDegree m + m.length ≤ bound := by
  induction m generalizing start with
  | nil => simpa [cutsFrom, totalDegree] using h
  | cons e m ih =>
    rw [cutsFrom, List.forall_mem_cons]
    simp only [totalDegree, List.sum_cons, List.length_cons] at ih ⊢
    by_cases hcut : start + e < bound
    · rw [ih hcut]
      omega
    · omega

private theorem between_cutsFrom (c : ℕ) (m : Monomial) :
    gaps.between c (cutsFrom (c + 1) m) = m.toInts := by
  induction m generalizing c with
  | nil => rfl
  | cons e m ih =>
    rw [cutsFrom, gaps.between, ih]
    refine congrArg (· :: toInts m) ?_
    show ((c + 1 + e : ℕ) : ℤ) - c - 1 = (e : ℤ)
    omega

private theorem gaps_cutsFrom (m : Monomial) : gaps (cutsFrom 0 m) = m.toInts := by
  cases m with
  | nil => rfl
  | cons e m =>
    rw [cutsFrom, gaps, between_cutsFrom, Nat.zero_add]
    rfl

theorem toInts_injective : Function.Injective toInts :=
  List.map_injective_iff.mpr fun _ _ => Int.ofNat.inj

theorem exponentsOfCuts_of_perm (hm : m ≠ []) (h : cuts.Perm (cutsFrom 0 m)) :
    exponentsOfCuts cuts = .ok m.toInts := by
  have hsort : cuts.mergeSort (· ≤ ·) = cutsFrom 0 m :=
    ((List.mergeSort_perm cuts _).trans h).eq_of_pairwise' (List.pairwise_mergeSort' (· ≤ ·) cuts)
      ((pairwise_cutsFrom 0 m).imp Nat.le_of_lt)
  obtain ⟨e, m, rfl⟩ := List.exists_cons_of_ne_nil hm
  rw [exponentsOfCuts, hsort]
  exact congrArg Except.ok (gaps_cutsFrom (e :: m))

end Cuts

section Samples

variable {n d : ℕ} {m m' : Monomial} {cuts : List ℕ}

private theorem IsSample.perm {length count : ℕ} {places places' : List ℕ}
    (h : IsSample length count places) (hperm : places.Perm places') :
    IsSample length count places' where
  length_eq := hperm.length_eq ▸ h.length_eq
  nodup := hperm.nodup_iff.mp h.nodup
  lt i hi := h.lt i (hperm.mem_iff.mpr hi)

/-- Every sample has the cuts of a monomial. -/
theorem IsSample.exists_perm (h : IsSample (d + n) n cuts) :
    ∃ m ∈ boundedMonomials n d, cuts.Perm (cutsFrom 0 m) := by
  have hperm := List.mergeSort_perm cuts (· ≤ ·)
  have hsorted : (cuts.mergeSort (· ≤ ·)).Pairwise (· < ·) :=
    ((List.pairwise_mergeSort' (· ≤ ·) cuts).and (hperm.nodup_iff.mpr h.nodup)).imp
      fun h => Nat.lt_of_le_of_ne h.1 h.2
  obtain ⟨m, hm⟩ := exists_cutsFrom hsorted fun c _ => Nat.zero_le c
  rw [hm] at hperm
  have hsample := h.perm hperm.symm
  have hlength : m.length = n := (length_cutsFrom 0 m).symm.trans hsample.length_eq
  have hbound := (forall_mem_cutsFrom_lt (Nat.zero_le _)).mp hsample.lt
  exact ⟨m, ⟨hlength, by omega⟩, hperm.symm⟩

variable (hn : 0 < n)
include hn

theorem ne_nil_of_mem (hm : m ∈ boundedMonomials n d) : m ≠ [] :=
  List.ne_nil_of_length_pos (hm.1 ▸ hn)

end Samples

section Outcomes

variable {σ : Type} {source : RandomSource σ} {length count n d : ℕ} {m m' : Monomial}

theorem randomMonomial_eq {s s' : σ} {cuts : List ℕ}
    (h : source.sample (d + n) n s = .ok (cuts, s')) :
    randomMonomial source n d s = (exponentsOfCuts cuts).map fun m => (m, s') := by
  have hlength : ((d : ℤ) + (n : ℤ)).toNat = d + n := by omega
  rw [randomMonomial, hlength, h]
  show (exponentsOfCuts cuts >>= _) = _
  cases exponentsOfCuts cuts <;> rfl

end Outcomes

section Scripts

variable {length count : ℕ} {places : List ℕ}

theorem RandomSource.place_ok {i : ℕ} (h : i < length) :
    RandomSource.place length (Int.ofNat i) = .ok i := by
  have hnonneg : ¬Int.ofNat i < 0 := by simp
  have hbounds : 0 ≤ Int.ofNat i ∧ Int.ofNat i < length := by simpa using h
  rw [RandomSource.place, if_neg hnonneg, if_pos hbounds]
  rfl

theorem scripted_sample (h : IsSample length count places) (k : ℤ)
    (picks : List RandomSource.Pick) :
    RandomSource.scripted.sample length k (.several (places.map Int.ofNat) :: picks) =
      .ok (places, picks) := by
  have hplace (i : ℤ) (hi : i ∈ places.map Int.ofNat) :
      RandomSource.place length i = .ok i.toNat := by
    obtain ⟨j, hj, rfl⟩ := List.mem_map.mp hi
    exact RandomSource.place_ok (h.lt j hj)
  have hback : (places.map Int.ofNat).map Int.toNat = places := by
    rw [List.map_map]
    exact List.map_id places
  show ((places.map Int.ofNat).mapM (RandomSource.place length) >>= _) = _
  rw [mapM_ok hplace, hback]
  rfl

end Scripts

end PolyIdeal
