import PolyIdeal.Euclid.Congruence
import PolyIdeal.Proofs.Euclid.Gcd
import PolyIdeal.Proofs.Traced

/-!
# Simultaneous congruences

A solution modulo the moduli so far is corrected to solve one more congruence, just if the next
modulus is coprime to their product. So the last solution exists just if the moduli are pairwise
coprime, and then its class consists of all solutions.
-/

namespace PolyIdeal

open PolyIdeal.Euclidean LawfulEuclidean

/-- The rings with an exact division with remainder: the integers, and the polynomials in one
variable over the rationals or modulo a prime. -/
inductive Ring.IsExact : Ring → Prop
  | integers : IsExact (.domain .integers)
  | polynomials (K : Domain) [FieldDomain K] : IsExact (.polynomials K)

section Solutions

variable {E : Type} [Euclidean E]

/-- A class is that of the solutions of congruences `y ≡ x (mod m)` if its modulus is the product of
theirs, its value is a solution and every solution is a member. -/
structure ResidueClass.Solves (c : ResidueClass E) (pairs : List (E × E)) : Prop where
  modulus_eq : c.modulus = (pairs.map Prod.snd).foldl (· * ·) 1
  congruent : ∀ p ∈ pairs, Congruent c.value p.1 p.2
  of_eq : ∀ y, (∀ p ∈ pairs, Congruent y p.1 p.2) → ResidueClass.of y c.modulus = .ok c

/-- The same, for the solutions among the members of a class given by a value and a modulus. -/
structure ResidueClass.SolvesWithin (c : ResidueClass E) (solution modulus : E)
    (pairs : List (E × E)) : Prop where
  modulus_eq : c.modulus = (pairs.map Prod.snd).foldl (· * ·) modulus
  congruent : Congruent c.value solution modulus
  congruent_pairs : ∀ p ∈ pairs, Congruent c.value p.1 p.2
  of_eq : ∀ y, Congruent y solution modulus → (∀ p ∈ pairs, Congruent y p.1 p.2) →
    ResidueClass.of y c.modulus = .ok c

end Solutions

section Lawful

variable {E S : Type} [Euclidean E] [CommRing S] [LawfulEuclidean E S]
variable {modulus m : E} (solution x : E) {pairs : List (E × E)}

include S

private theorem pairwise_coprime_cons_cons (modulus m : E) (ms : List E) :
    (modulus :: m :: ms).Pairwise Coprime ↔
      Coprime modulus m ∧ (modulus * m :: ms).Pairwise Coprime := by
  have hmul (k : E) : Coprime (modulus * m) k ↔ Coprime modulus k ∧ Coprime m k := by
    rw [coprime_iff, coprime_iff, coprime_iff, denote_mul, IsCoprime.mul_left_iff]
  simp only [List.pairwise_cons, List.forall_mem_cons, hmul, forall₂_and]
  tauto

private theorem isZero_mul_eq_false (h : isZero modulus = false) (hm : isZero m = false) :
    isZero (modulus * m) = false := by
  have := isDomain (E := E)
  rw [isZero_eq_false_iff] at h hm ⊢
  rw [denote_mul]
  exact mul_ne_zero h hm

private theorem correction_ok (hm : isZero m = false) (hcoprime : Coprime modulus m) :
    ∃ s, correction solution modulus x m = .ok s ∧ Congruent (solution + s * modulus) x m := by
  obtain ⟨c, hinverse, hc⟩ := inverseMod_of_isCoprime hm (coprime_iff.mp hcoprime)
  obtain ⟨s, hrem, hs⟩ := rem_ok ((x - solution) * c) m hm
  refine ⟨s, ?_, ?_⟩
  · rw [correction, hinverse]
    exact hrem
  · have hvalue : denote (solution + s * modulus) - denote x =
        (denote solution - denote x) * (1 - denote c * denote modulus) -
          (denote ((x - solution) * c) - denote s) * denote modulus := by
      simp only [denote_add, denote_mul, denote_sub]
      ring
    rw [congruent_iff, hvalue]
    exact dvd_sub (hc.mul_left _) (hs.mul_right _)

private theorem correction_error (hcoprime : ¬ Coprime modulus m) :
    ∃ cause, correction solution modulus x m = .error (.arithmetic cause) := by
  obtain ⟨cause, hinverse⟩ := inverseMod_of_not_isCoprime (mt coprime_iff.mpr hcoprime)
  exact ⟨cause, by rw [correction, hinverse]; rfl⟩

private theorem solvesWithin_of (hmodulus : isZero modulus = false) :
    ∃ c, ResidueClass.of solution modulus = .ok c ∧ c.SolvesWithin solution modulus [] := by
  obtain ⟨r, hrem, hr⟩ := rem_ok solution modulus hmodulus
  have hof (y : E) : ResidueClass.of y modulus = (rem y modulus).map fun r => ⟨r, modulus⟩ :=
    if_neg (by rw [hmodulus]; exact Bool.false_ne_true)
  refine ⟨⟨r, modulus⟩, by rw [hof, hrem]; rfl, rfl, ?_, by simp, ?_⟩
  · rw [congruent_iff]
    exact (dvd_sub_comm).mp hr
  · intro y hy _
    rw [hof, rem_congr y solution modulus hmodulus (congruent_iff.mp hy), hrem]
    rfl

/-- The solutions of one more congruence in a class form a class modulo the product. -/
private theorem ResidueClass.SolvesWithin.cons {c : ResidueClass E} {solution x s : E}
    (hcoprime : Coprime modulus m)
    (hs : Congruent (solution + s * modulus) x m)
    (hc : c.SolvesWithin (solution + s * modulus) (modulus * m) pairs) :
    c.SolvesWithin solution modulus ((x, m) :: pairs) := by
  have hwithin (y : E) : Congruent y (solution + s * modulus) (modulus * m) ↔
      Congruent y solution modulus ∧ Congruent y x m := by
    rw [congruent_iff] at hs
    rw [coprime_iff] at hcoprime
    have hmodulus : denote modulus ∣ denote (solution + s * modulus) - denote solution := by
      rw [denote_add, denote_mul, add_sub_cancel_left]
      exact Dvd.intro_left _ rfl
    rw [congruent_iff, congruent_iff, congruent_iff, denote_mul]
    constructor
    · intro h
      have hsolution := dvd_add (dvd_of_mul_right_dvd h) hmodulus
      have hx := dvd_add (dvd_of_mul_left_dvd h) hs
      rw [sub_add_sub_cancel] at hsolution hx
      exact ⟨hsolution, hx⟩
    · rintro ⟨hsolution, hx⟩
      refine hcoprime.mul_dvd ?_ ?_
      · rw [← sub_sub_sub_cancel_right _ _ (denote solution)]
        exact dvd_sub hsolution hmodulus
      · rw [← sub_sub_sub_cancel_right _ _ (denote x)]
        exact dvd_sub hx hs
  obtain ⟨hsolution, hx⟩ := (hwithin c.value).mp hc.congruent
  refine ⟨hc.modulus_eq, hsolution, ?_, ?_⟩
  · rw [List.forall_mem_cons]
    exact ⟨hx, hc.congruent_pairs⟩
  · intro y hy hpairs
    rw [List.forall_mem_cons] at hpairs
    exact hc.of_eq y ((hwithin y).mpr ⟨hy, hpairs.1⟩) hpairs.2

/-- A run from a solution modulo `modulus`, by whether the moduli are pairwise coprime. -/
theorem solveFrom_ok (index : ℕ) (hmodulus : isZero modulus = false)
    (hpairs : ∀ p ∈ pairs, isZero p.2 = false)
    (hcoprime : (modulus :: pairs.map Prod.snd).Pairwise Coprime) :
    ∃ c, (solveFrom index solution modulus pairs).result = .ok c ∧
      c.SolvesWithin solution modulus pairs := by
  induction pairs generalizing index solution modulus with
  | nil => exact solvesWithin_of solution hmodulus
  | cons p pairs ih =>
    obtain ⟨x, m⟩ := p
    obtain ⟨hm, hpairs⟩ := List.forall_mem_cons.mp hpairs
    obtain ⟨hhead, htail⟩ := (pairwise_coprime_cons_cons _ _ _).mp hcoprime
    obtain ⟨s, hcorrection, hs⟩ := correction_ok solution x hm hhead
    obtain ⟨c, hrun, hc⟩ := ih (solution + s * modulus) (index + 1)
      (isZero_mul_eq_false hmodulus hm) hpairs htail
    refine ⟨c, ?_, hc.cons hhead hs⟩
    rw [solveFrom, hcorrection]
    exact hrun

theorem solveFrom_error (index : ℕ) (hmodulus : isZero modulus = false)
    (hpairs : ∀ p ∈ pairs, isZero p.2 = false)
    (hcoprime : ¬ (modulus :: pairs.map Prod.snd).Pairwise Coprime) :
    ∃ cause, (solveFrom index solution modulus pairs).result = .error (.arithmetic cause) := by
  induction pairs generalizing index solution modulus with
  | nil => exact absurd (List.pairwise_singleton _ _) hcoprime
  | cons p pairs ih =>
    obtain ⟨x, m⟩ := p
    obtain ⟨hm, hpairs⟩ := List.forall_mem_cons.mp hpairs
    rw [solveFrom]
    by_cases hhead : Coprime modulus m
    · obtain ⟨s, hcorrection, -⟩ := correction_ok solution x hm hhead
      rw [hcorrection]
      refine ih (solution + s * modulus) (index + 1) (isZero_mul_eq_false hmodulus hm) hpairs ?_
      exact fun htail => hcoprime ((pairwise_coprime_cons_cons _ _ _).mpr ⟨hhead, htail⟩)
    · obtain ⟨cause, hcorrection⟩ := correction_error solution x hhead
      exact ⟨cause, by rw [hcorrection]; rfl⟩

omit S in
private theorem ResidueClass.SolvesWithin.solves {c : ResidueClass E} {x : E} (hone : 1 * m = m)
    (hc : c.SolvesWithin x (1 * m) pairs) : c.Solves ((x, m) :: pairs) := by
  refine ⟨hc.modulus_eq, ?_, ?_⟩
  · rw [List.forall_mem_cons]
    refine ⟨?_, hc.congruent_pairs⟩
    show Congruent c.value x m
    rw [← hone]
    exact hc.congruent
  · intro y hy
    rw [List.forall_mem_cons] at hy
    refine hc.of_eq y ?_ hy.2
    rw [hone]
    exact hy.1

private theorem chineseRemainder_lawful {xs ms : List E} (hlength : xs.length = ms.length)
    (hne : ms ≠ []) (hms : ∀ m ∈ ms, isZero m = false) :
    (ms.Pairwise Coprime →
      ∃ c, (chineseRemainder xs ms).result = .ok c ∧ c.Solves (xs.zip ms)) ∧
    (¬ ms.Pairwise Coprime →
      ∃ cause, (chineseRemainder xs ms).result = .error (.arithmetic cause)) := by
  obtain ⟨m, ms, rfl⟩ := List.exists_cons_of_ne_nil hne
  obtain ⟨x, xs, rfl⟩ := List.exists_cons_of_length_eq_add_one hlength
  have hone : 1 * m = m := by
    apply denote_bijective.injective
    rw [denote_mul, denote_one, one_mul]
  have hsnd : (xs.zip ms).map Prod.snd = ms :=
    List.map_snd_zip (Nat.le_of_eq (Nat.succ.inj hlength).symm)
  obtain ⟨hm, htail⟩ := List.forall_mem_cons.mp hms
  have hpairs : ∀ p ∈ xs.zip ms, isZero p.2 = false :=
    fun p hp => htail p.2 (List.of_mem_zip hp).2
  have hfirst : isZero (1 * m) = false := by rwa [hone]
  have hpairwise : (m :: ms).Pairwise Coprime ↔
      (1 * m :: (xs.zip ms).map Prod.snd).Pairwise Coprime := by rw [hone, hsnd]
  rw [chineseRemainder, if_neg (not_not.mpr hlength), List.zip_cons_cons, hpairwise]
  constructor
  · intro hcoprime
    obtain ⟨c, hrun, hc⟩ := solveFrom_ok x 1 hfirst hpairs hcoprime
    exact ⟨c, hrun, hc.solves hone⟩
  · exact solveFrom_error x 1 hfirst hpairs

end Lawful

open FieldDomain in
/-- The Chinese remainder theorem. -/
theorem chineseRemainder_spec {A : Ring} (hA : A.IsExact) (xs ms : List A.Elem)
    (hlength : xs.length = ms.length) (hne : ms ≠ []) (hms : ∀ m ∈ ms, isZero m = false) :
    (ms.Pairwise Coprime →
      ∃ c, (chineseRemainder xs ms).result = .ok c ∧ c.Solves (xs.zip ms)) ∧
    (¬ ms.Pairwise Coprime →
      ∃ cause, (chineseRemainder xs ms).result = .error (.arithmetic cause)) := by
  cases hA with
  | integers => exact chineseRemainder_lawful (E := ℤ) hlength hne hms
  | polynomials K => exact chineseRemainder_lawful (E := Univariate K.Elem) hlength hne hms

open Univariate in
/-- Modulo -3 and 5, modulo 4 and -6, and over the rationals modulo `X` and `X + 1`. -/
theorem chineseRemainder_cases :
    (∃ c, (chineseRemainder (E := ℤ) [2, 3] [-3, 5]).result = .ok c ∧ c.Solves [(2, -3), (3, 5)]) ∧
    (∃ cause, (chineseRemainder (E := ℤ) [0, 1] [4, -6]).result = .error (.arithmetic cause)) ∧
    ∃ c, (chineseRemainder (E := Univariate ℚ) [ofCoefficients [1], ofCoefficients [2]]
        [ofCoefficients [0, 1], ofCoefficients [1, 1]]).result = .ok c ∧
      c.Solves [(ofCoefficients [1], ofCoefficients [0, 1]),
        (ofCoefficients [2], ofCoefficients [1, 1])] := by
  have hodd : ∀ r s : ℤ, r * 4 + s * -6 ≠ 1 := by omega
  refine ⟨?_, ?_, ?_⟩
  · apply (chineseRemainder_spec .integers [(2 : ℤ), 3] [(-3 : ℤ), 5] rfl (by simp) (by decide)).1
    exact List.pairwise_pair.mpr ⟨(-2 : ℤ), (-1 : ℤ), rfl⟩
  · apply (chineseRemainder_spec .integers [(0 : ℤ), 1] [(4 : ℤ), -6] rfl (by simp) (by decide)).2
    rw [List.pairwise_pair]
    rintro ⟨r, s, hrs⟩
    exact hodd r s hrs
  · apply (chineseRemainder_spec (.polynomials .rationals)
      [ofCoefficients [(1 : ℚ)], ofCoefficients [(2 : ℚ)]]
      [ofCoefficients [(0 : ℚ), 1], ofCoefficients [(1 : ℚ), 1]] rfl (by simp) (by decide)).1
    exact List.pairwise_pair.mpr
      ⟨ofCoefficients [(-1 : ℚ)], ofCoefficients [(1 : ℚ)], by decide +kernel⟩

end PolyIdeal
