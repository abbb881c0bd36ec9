import PolyIdeal.Proofs.Builder.Build
import PolyIdeal.Proofs.Coefficient.Integer
import PolyIdeal.Proofs.Polynomial.Evaluation
import PolyIdeal.Proofs.Polynomial.Product
import PolyIdeal.Proofs.Random.StarsAndBars

/-!
# Random ideals for all draws

A source that delivers a coefficient and cuts for every term determines a random ideal. Whatever
it delivers, a generator has at every monomial the coefficient that was drawn last for it, even
where this is zero in the domain.
-/

namespace PolyIdeal

open Monomial Function

/-- A coefficient and cuts that are drawn for a term. -/
structure Draw where
  coefficient : ℤ
  cuts : List ℕ

/-- Whether a draw can come about for a term in `n` variables of total degree at most `d`. -/
structure Draw.IsOutcome (n d : ℕ) (draw : Draw) : Prop where
  coefficient_mem : draw.coefficient ∈ nonzeroIntegers coefficientBound
  isSample : IsSample (d + n) n draw.cuts

instance (n d : ℕ) (draw : Draw) : Decidable (draw.IsOutcome n d) :=
  decidable_of_iff (draw.coefficient ∈ nonzeroIntegers coefficientBound ∧
    draw.cuts.length = n ∧ draw.cuts.Nodup ∧ ∀ i ∈ draw.cuts, i < d + n)
    ⟨fun ⟨hk, hlength, hnodup, hlt⟩ => ⟨hk, hlength, hnodup, hlt⟩,
      fun ⟨hk, hlength, hnodup, hlt⟩ => ⟨hk, hlength, hnodup, hlt⟩⟩

/-- Whether a draw is one for a monomial. -/
def Draw.IsFor (draw : Draw) (m : Monomial) : Prop :=
  exponentsOfCuts draw.cuts = .ok m.toInts

instance (draw : Draw) (m : Monomial) : Decidable (draw.IsFor m) :=
  inferInstanceAs (Decidable (_ = _))

/-- The coefficient that is drawn last for a monomial. -/
def lastDrawn? (m : Monomial) : List Draw → Option ℤ
  | [] => none
  | draw :: draws =>
    (lastDrawn? m draws).or (if draw.IsFor m then some draw.coefficient else none)

/-- A source delivers draws one after the other. -/
inductive Delivers {σ : Type} (source : RandomSource σ) (n d : ℕ) : σ → List Draw → σ → Prop
  | nil (s : σ) : Delivers source n d s [] s
  | cons {s s₁ s₂ s' : σ} {i : ℕ} {draw : Draw} {draws : List Draw}
      (choose_eq : source.choose (nonzeroIntegers coefficientBound).length s = .ok (i, s₁))
      (coefficient_eq : (nonzeroIntegers coefficientBound)[i]? = some draw.coefficient)
      (sample_eq : source.sample (d + n) n s₁ = .ok (draw.cuts, s₂))
      (isSample : IsSample (d + n) n draw.cuts)
      (rest : Delivers source n d s₂ draws s') : Delivers source n d s (draw :: draws) s'

/-- What a polynomial in `n` variables is like that has the terms of draws. -/
structure HasDrawn {R : Type} [CommRing R] [DecidableEq R] (n d size : ℕ) (draws : List Draw)
    (p : Polynomial R) : Prop where
  nvars_eq : p.nvars = n
  isUnivariate_iff : p.isUnivariate = true ↔ n = 1
  degree_le : p.degree ≤ d
  length_terms_le : p.terms.length ≤ size
  mem_terms_iff : ∀ m c, (m, c) ∈ p.terms ↔ ∃ k, lastDrawn? m draws = some k ∧ c = (k : R) ∧ c ≠ 0
  coefficients_eq : ∀ c ∈ p.coefficients, ∃ k : ℤ, k ≠ 0 ∧ -10 ≤ k ∧ k ≤ 10 ∧ c = (k : R)

/-- What a random ideal is like, for the draws of its generators: these are the polynomials with
the drawn terms, without zeros. -/
structure IsDrawnIdeal {R : Type} [CommRing R] [DecidableEq R] (n d size generators : ℕ)
    (drawn : List (List Draw)) (ideal : List (Polynomial R)) : Prop where
  length_le : ideal.length ≤ generators
  ne_zero : ∀ p ∈ ideal, p.isZero = false
  exists_draws : ∀ p ∈ ideal, ∃ draws ∈ drawn, HasDrawn n d size draws p
  eq_filter : ∃ ps, List.Forall₂ (HasDrawn n d size) drawn ps ∧
    ideal = ps.filter fun p => !p.isZero

private theorem mem_nonzeroIntegers {bound k : ℤ} :
    k ∈ nonzeroIntegers bound ↔ k ≠ 0 ∧ -bound ≤ k ∧ k ≤ bound := by
  simp only [nonzeroIntegers, List.mem_filter, List.mem_map, List.mem_range, decide_eq_true_eq]
  constructor
  · rintro ⟨⟨i, hi, rfl⟩, hne⟩
    rw [Int.ofNat_eq_natCast] at hne ⊢
    omega
  · rintro ⟨hne, hlow, hhigh⟩
    refine ⟨⟨(k + bound).toNat, by omega, ?_⟩, hne⟩
    rw [Int.ofNat_eq_natCast]
    omega

section Draws

variable {σ : Type} {source : RandomSource σ} {n d : ℕ} {s s' : σ} {m : Monomial} {draw : Draw}
  {draws draws' : List Draw} {k : ℤ}

private theorem exists_of_lastDrawn? (h : lastDrawn? m draws = some k) :
    ∃ draw ∈ draws, draw.IsFor m ∧ draw.coefficient = k := by
  induction draws with
  | nil => cases h
  | cons draw draws ih =>
    rw [lastDrawn?] at h
    cases hlater : lastDrawn? m draws with
    | some l =>
      rw [hlater] at h
      obtain ⟨draw', hmem, hfor⟩ := ih (hlater.trans h)
      exact ⟨draw', List.mem_cons_of_mem draw hmem, hfor⟩
    | none =>
      rw [hlater, Option.none_or] at h
      split at h
      · rename_i hfor
        exact ⟨draw, List.mem_cons_self, hfor, Option.some.inj h⟩
      · cases h

private theorem Draw.IsOutcome.exists_isFor (h : draw.IsOutcome n d) (hn : 0 < n) :
    ∃ m ∈ boundedMonomials n d, ∀ m', draw.IsFor m' ↔ m' = m := by
  obtain ⟨m, hm, hperm⟩ := h.isSample.exists_perm
  have hcuts := exponentsOfCuts_of_perm (ne_nil_of_mem hn hm) hperm
  refine ⟨m, hm, fun m' => ?_⟩
  rw [Draw.IsFor, hcuts]
  exact ⟨fun heq => (toInts_injective (Except.ok.inj heq)).symm, fun heq => heq ▸ rfl⟩

namespace Delivers

private theorem isOutcome (h : Delivers source n d s draws s') :
    ∀ draw ∈ draws, draw.IsOutcome n d := by
  induction h with
  | nil s => simp
  | cons _ hcoefficient _ hsample _ ih =>
    exact List.forall_mem_cons.mpr ⟨⟨List.mem_of_getElem? hcoefficient, hsample⟩, ih⟩

private theorem exists_of_append (h : Delivers source n d s (draws ++ draws') s') :
    ∃ s₁, Delivers source n d s draws s₁ ∧ Delivers source n d s₁ draws' s' := by
  induction draws generalizing s with
  | nil => exact ⟨s, .nil s, h⟩
  | cons draw draws ih =>
    cases h with
    | cons hchoose hcoefficient hsample hcuts hrest =>
      obtain ⟨s₁, hdraws, hdraws'⟩ := ih hrest
      exact ⟨s₁, .cons hchoose hcoefficient hsample hcuts hdraws, hdraws'⟩

end Delivers

/-- The choices of a script for a draw. -/
def Draw.picks (draw : Draw) : List RandomSource.Pick :=
  [.one (.ofNat ((nonzeroIntegers coefficientBound).idxOf draw.coefficient)),
    .several (draw.cuts.map Int.ofNat)]

private theorem delivers_picks (h : ∀ draw ∈ draws, draw.IsOutcome n d) :
    Delivers .scripted n d (draws.flatMap Draw.picks) draws [] := by
  induction draws with
  | nil => exact .nil []
  | cons draw draws ih =>
    obtain ⟨hdraw, hdraws⟩ := List.forall_mem_cons.mp h
    have hlt := List.idxOf_lt_length_of_mem hdraw.coefficient_mem
    refine .cons ?_ (List.getElem?_idxOf hdraw.coefficient_mem)
      (scripted_sample hdraw.isSample _ _) hdraw.isSample (ih hdraws)
    show (RandomSource.place _ _ >>= _) = _
    rw [RandomSource.place_ok hlt]
    rfl

end Draws

section Terms

variable {σ : Type} {source : RandomSource σ} {n d : ℕ} {s s₁ s₂ s' : σ} {m : Monomial}
  {draw : Draw} {draws : List Draw} {R : Type} [CommRing R] [DecidableEq R] [Coefficient R]
  {b : Builder R} {f : Monomial → R}

variable [IntegerCoefficient R]

private theorem Builder.apply_set (hm : m.length = b.nvars) (k : ℤ) :
    b.apply (.set m.toInts (some (.integer k))) = (b.assign m (k : R), .ok ()) := by
  have hoperand : Coefficient.ofOperand? (R := R) (some (.integer k)) = .ok (k : R) := by
    rw [Coefficient.ofOperand?, Option.bind_some, IntegerCoefficient.ofScalar?_integer]
  rw [Builder.apply, Builder.monomial?_toInts hm]
  simp only [hoperand]

private theorem setRandomTerms_succ {i : ℕ}
    (hchoose : source.choose (nonzeroIntegers coefficientBound).length s = .ok (i, s₁))
    (hcoefficient : (nonzeroIntegers coefficientBound)[i]? = some draw.coefficient)
    (hsample : source.sample (d + n) n s₁ = .ok (draw.cuts, s₂)) (hfor : draw.IsFor m)
    (hm : m.length = b.nvars) (count : ℕ) :
    setRandomTerms source n d coefficientBound (count + 1) b s =
      setRandomTerms source n d coefficientBound count (b.assign m (draw.coefficient : R)) s₂ := by
  have hmonomial : randomMonomial source n d s₁ = .ok (m.toInts, s₂) := by
    rw [randomMonomial_eq hsample, hfor]
    rfl
  have hgetD : (nonzeroIntegers coefficientBound).getD i 0 = draw.coefficient := by
    rw [List.getD_eq_getElem?_getD, hcoefficient, Option.getD_some]
  rw [setRandomTerms]
  simp only [hchoose, bind, Except.bind, hmonomial, hgetD, Builder.apply_set hm]

/-- Draws leave the coefficients that were drawn last. -/
private theorem setRandomTerms_ok (hn : 0 < n) (h : Delivers source n d s draws s') (hb : b.Holds f)
    (hnvars : b.nvars = n) :
    ∃ b', setRandomTerms source n d coefficientBound draws.length b s = .ok (b', s') ∧
      b'.nvars = n ∧ b'.Holds fun m => (lastDrawn? m draws).elim (f m) Int.cast := by
  induction h generalizing b f with
  | nil s => exact ⟨b, rfl, hnvars, hb⟩
  | @cons s s₁ s₂ s' i draw draws hchoose hcoefficient hsample hcuts hrest ih =>
    have houtcome : draw.IsOutcome n d := ⟨List.mem_of_getElem? hcoefficient, hcuts⟩
    obtain ⟨m, hm, hfor⟩ := houtcome.exists_isFor hn
    have hlength : m.length = b.nvars := hm.1.trans hnvars.symm
    obtain ⟨b', hrun, hnvars', hb'⟩ := ih (hb.assign hlength (draw.coefficient : R)) hnvars
    refine ⟨b', ?_, hnvars', ?_⟩
    · rw [List.length_cons,
        setRandomTerms_succ hchoose hcoefficient hsample ((hfor m).mpr rfl) hlength, hrun]
    · convert hb' using 2 with m'
      rw [lastDrawn?, update_apply]
      cases lastDrawn? m' draws with
      | some k => rfl
      | none =>
        rw [Option.none_or]
        by_cases hm' : m' = m
        · rw [if_pos ((hfor m').mpr hm'), if_pos hm']
          rfl
        · rw [if_neg fun h => hm' ((hfor m').mp h), if_neg hm']

end Terms

section LastDrawn

variable {n d : ℕ} {draws : List Draw} {R : Type} [CommRing R] [DecidableEq R] {p : Polynomial R}
  (hp : ∀ m, p.coefficient m = (lastDrawn? m draws).elim 0 Int.cast)
include hp

private theorem mem_terms_iff_lastDrawn? (m : Monomial) (c : R) :
    (m, c) ∈ p.terms ↔ ∃ k, lastDrawn? m draws = some k ∧ c = (k : R) ∧ c ≠ 0 := by
  rw [Polynomial.mem_terms, hp]
  cases lastDrawn? m draws with
  | none =>
    rw [Option.elim_none]
    refine iff_of_false (fun h => h.2 h.1.symm) ?_
    rintro ⟨k, hk, -⟩
    cases hk
  | some k =>
    rw [Option.elim_some]
    constructor
    · rintro ⟨rfl, hne⟩
      exact ⟨k, rfl, rfl, hne⟩
    · rintro ⟨l, hl, rfl, hne⟩
      obtain rfl := Option.some.inj hl
      exact ⟨rfl, hne⟩

private theorem exists_draw_of_mem_terms {t : Monomial × R} (ht : t ∈ p.terms) :
    ∃ draw ∈ draws, draw.IsFor t.1 ∧ t.2 = (draw.coefficient : R) := by
  obtain ⟨k, hk, hc, -⟩ := (mem_terms_iff_lastDrawn? hp t.1 t.2).mp ht
  obtain ⟨draw, hmem, hfor, rfl⟩ := exists_of_lastDrawn? hk
  exact ⟨draw, hmem, hfor, hc⟩

private theorem length_terms_le_of_lastDrawn? : p.terms.length ≤ draws.length := by
  let drawnAs (m : Monomial) : Except Failure (List ℤ) := .ok m.toInts
  have hnodup : (p.monomials.map drawnAs).Nodup :=
    p.nodup_monomials.map fun m m' h => toInts_injective (Except.ok.inj h)
  have hsub : p.monomials.map drawnAs ⊆ draws.map fun draw => exponentsOfCuts draw.cuts := by
    rw [Polynomial.monomials, List.map_map]
    intro e he
    obtain ⟨t, ht, rfl⟩ := List.mem_map.mp he
    obtain ⟨draw, hmem, hfor, -⟩ := exists_draw_of_mem_terms hp ht
    exact List.mem_map.mpr ⟨draw, hmem, hfor⟩
  have hle := (List.subperm_of_subset hnodup hsub).length_le
  rwa [List.length_map, List.length_map, Polynomial.monomials, List.length_map] at hle

private theorem degree_le_of_lastDrawn? (hn : 0 < n) (hdraws : ∀ draw ∈ draws, draw.IsOutcome n d) :
    p.degree ≤ d := by
  have hdegree : (p.terms.map fun t => totalDegree t.1 + 1).foldl max 0 ≤ d + 1 := by
    rw [foldl_max_le_iff, List.forall_mem_map]
    refine ⟨Nat.zero_le _, fun t ht => ?_⟩
    obtain ⟨draw, hmem, hfor, -⟩ := exists_draw_of_mem_terms hp ht
    obtain ⟨m, hm, hiff⟩ := (hdraws draw hmem).exists_isFor hn
    rw [(hiff t.1).mp hfor]
    exact Nat.succ_le_succ hm.2
  rw [Polynomial.degree_eq_foldl]
  omega

end LastDrawn

section Generators

variable {σ : Type} {source : RandomSource σ} {n d size : ℕ} {s s' : σ} {draws : List Draw}
  {drawn : List (List Draw)} {R : Type} [CommRing R] [DecidableEq R] [Coefficient R]

omit [Coefficient R] in
private theorem hasDrawn_of_coefficient {p : Polynomial R} (hn : 0 < n)
    (hdraws : ∀ draw ∈ draws, draw.IsOutcome n d) (hnvars : p.nvars = n)
    (hkind : p.isUnivariate = true ↔ n = 1)
    (hp : ∀ m, p.coefficient m = (lastDrawn? m draws).elim 0 Int.cast) :
    HasDrawn n d draws.length draws p where
  nvars_eq := hnvars
  isUnivariate_iff := hkind
  degree_le := degree_le_of_lastDrawn? hp hn hdraws
  length_terms_le := length_terms_le_of_lastDrawn? hp
  mem_terms_iff := mem_terms_iff_lastDrawn? hp
  coefficients_eq c hc := by
    obtain ⟨t, ht, rfl⟩ := List.mem_map.mp hc
    obtain ⟨draw, hmem, -, hcoefficient⟩ := exists_draw_of_mem_terms hp ht
    have hk := mem_nonzeroIntegers.mp (hdraws draw hmem).coefficient_mem
    exact ⟨draw.coefficient, hk.1, hk.2.1, hk.2.2, hcoefficient⟩

variable [IntegerCoefficient R]

private theorem randomPolynomial_ok (hn : 0 < n) (h : Delivers source n d s draws s')
    (hsize : draws.length = size) :
    ∃ p : Polynomial R, randomPolynomial source n d size coefficientBound s = .ok (p, s') ∧
      HasDrawn n d size draws p := by
  subst hsize
  obtain ⟨b, hrun, hnvars, hb⟩ := setRandomTerms_ok (R := R) hn h Builder.Holds.create rfl
  obtain ⟨p, hbuild, hp, hcoefficient⟩ := Builder.build_ok (hnvars ▸ hn) hb.length_eq
  have hkind := Builder.isUnivariate_of_build hbuild
  rw [hnvars] at hp hkind
  refine ⟨p, ?_, hasDrawn_of_coefficient hn h.isOutcome hp hkind fun m => ?_⟩
  · have hcreate : Builder.create (R := R) n = .ok { nvars := n } := if_neg (by omega)
    rw [randomPolynomial, hcreate]
    simp only [bind, Except.bind, Int.toNat_natCast, hrun, hbuild]
    rfl
  · rw [hcoefficient, hb.sumAt_terms]
    rfl

theorem randomPolynomials_ok (hn : 0 < n) (hsize : ∀ draws ∈ drawn, draws.length = size)
    (h : Delivers source n d s drawn.flatten s') :
    ∃ ps : List (Polynomial R),
      randomPolynomials source n d size coefficientBound drawn.length s = .ok ps ∧
        List.Forall₂ (HasDrawn n d size) drawn ps := by
  induction drawn generalizing s with
  | nil => exact ⟨[], rfl, .nil⟩
  | cons draws drawn ih =>
    obtain ⟨hdraws, hsize⟩ := List.forall_mem_cons.mp hsize
    rw [List.flatten_cons] at h
    obtain ⟨s₁, hfirst, hrest⟩ := h.exists_of_append
    obtain ⟨p, hp, hdrawn⟩ := randomPolynomial_ok (R := R) hn hfirst hdraws
    obtain ⟨ps, hps, hall⟩ := ih hsize hrest
    refine ⟨p :: ps, ?_, .cons hdrawn hall⟩
    rw [List.length_cons, randomPolynomials, hp]
    simp only [bind, Except.bind, hps]
    rfl

/-- Whatever is drawn, the random ideal is made of the polynomials with the coefficients that were
drawn last. -/
theorem randomIdeal_ok (hn : 0 < n) {generators : ℕ} (hgenerators : drawn.length = generators)
    (hsize : ∀ draws ∈ drawn, draws.length = size) (h : Delivers source n d s drawn.flatten s') :
    ∃ ideal : List (Polynomial R), randomIdeal source n d size generators s = .ok ideal ∧
      IsDrawnIdeal n d size generators drawn ideal := by
  subst hgenerators
  obtain ⟨ps, hps, hall⟩ := randomPolynomials_ok (R := R) hn hsize h
  refine ⟨ps.filter fun p => !p.isZero, ?_, ?_, ?_, ?_, ⟨ps, hall, rfl⟩⟩
  · rw [randomIdeal, Int.toNat_natCast, hps]
    rfl
  · exact (List.length_filter_le _ ps).trans_eq hall.length_eq.symm
  · intro p hp
    simpa using (List.mem_filter.mp hp).2
  · intro p hp
    obtain ⟨i, hi, rfl⟩ := List.getElem_of_mem (List.mem_filter.mp hp).1
    have hi' := hall.length_eq.symm ▸ hi
    exact ⟨_, List.getElem_mem hi', hall.get hi' hi⟩

/-- Draws for two polynomials modulo 5, of which one loses a term and the other all. -/
def collisions : List (List Draw) :=
  [[⟨3, [0, 1]⟩, ⟨2, [3, 1]⟩, ⟨5, [1, 3]⟩], [⟨5, [0, 1]⟩, ⟨-10, [0, 2]⟩, ⟨5, [3, 0]⟩]]

theorem randomIdeal_ok_collisions :
    Delivers .scripted 2 2 (collisions.flatten.flatMap Draw.picks) collisions.flatten [] ∧
      ∃ ideal : List (Polynomial (Residue 5)),
        randomIdeal .scripted 2 2 3 2 (collisions.flatten.flatMap Draw.picks) = .ok ideal ∧
          IsDrawnIdeal 2 2 3 2 collisions ideal := by
  have houtcomes : ∀ draw ∈ collisions.flatten, draw.IsOutcome 2 2 := by decide
  have hdelivers := delivers_picks houtcomes
  exact ⟨hdelivers, randomIdeal_ok Nat.two_pos rfl (by decide) hdelivers⟩

end Generators

end PolyIdeal
