import PolyIdeal.Proofs.Polynomial.Renaming
import PolyIdeal.Proofs.Reduction.NormalForm

/-!
# Reduction in renamed variables

A bijection of the variables that carries one order over to another carries reduction by the one
over to reduction by the other. Every search then comes upon corresponding monomials in the same
turn, in whatever sequence the terms are stored.
-/

namespace PolyIdeal

open Monomial MonomialOrder

variable {R : Type} [CommRing R] [DecidableEq R] {n : ℕ} {order order' : Order} {ρ : Fin n ≃ Fin n}

namespace Reducer

variable [Coefficient R]

/-- Searches that both find nothing, or that find what corresponds to each other. -/
private def FindAlike {α β : Type} (rel : α → β → Prop) (found : Except Failure (Option α))
    (found' : Except Failure (Option β)) : Prop :=
  (found = .ok none ∧ found' = .ok none) ∨
    ∃ a b, found = .ok (some a) ∧ found' = .ok (some b) ∧ rel a b

/-- Cancellations of corresponding monomials with corresponding outcomes. -/
private def Corresponding (ρ : Fin n ≃ Fin n) {ms ms' : List Monomial} (s : Cancellation R ms)
    (s' : Cancellation R ms') : Prop :=
  ∃ d, s.monomial = ofExponents d ∧ s'.monomial = ofExponents (d.mapDomain ρ) ∧
    Renamed ρ s.outcome s'.outcome

variable [SoundDivision R] {h : order.accepts n = true} {h' : order'.accepts n = true}
  (hρ : Carries ρ (order.monomialOrder n h) (order'.monomialOrder n h'))
  {f f' : Polynomial R} {basis : List (Polynomial R)} {F : Polynomial R → Polynomial R}
  {r r' : Reducer R}
include hρ

private theorem cancel?_renamed (hf : Renamed ρ f f') (hF : ∀ g ∈ basis, Renamed ρ g (F g))
    (d : Fin n →₀ ℕ) :
    FindAlike (fun a b => Renamed ρ a.2 b.2)
      (cancel? none f (ofExponents d) (f.coefficient (ofExponents d)) (basis.map (divisorOf h)))
      (cancel? none f' (ofExponents (d.mapDomain ρ))
        (f'.coefficient (ofExponents (d.mapDomain ρ))) ((basis.map F).map (divisorOf h'))) := by
  rw [hf.coefficient_eq]
  induction basis with
  | nil => exact .inl ⟨rfl, rfl⟩
  | cons g basis ih =>
    have hg := hF g List.mem_cons_self
    have htail := ih fun g hg => hF g (List.mem_cons_of_mem _ hg)
    rw [List.map_cons, List.map_cons, List.map_cons, cancel?, cancel?]
    simp only [divisorOf, Divisor.leadingMonomial, div?_ofExponents]
    -- The divisor applies on both sides or on neither, with the same quotient.
    have hle_iff : (order'.monomialOrder n h').degree ((F g).denote n) ≤ d.mapDomain ρ ↔
        (order.monomialOrder n h).degree (g.denote n) ≤ d := by
      rw [hg.denote_eq, hρ.degree_rename_le_iff]
    by_cases hle : (order.monomialOrder n h).degree (g.denote n) ≤ d
    · have hlc : (order'.monomialOrder n h').leadingCoeff ((F g).denote n) =
          (order.monomialOrder n h).leadingCoeff (g.denote n) := by
        rw [hg.denote_eq, hρ.leadingCoeff_rename]
      rw [if_pos hle, if_pos (hle_iff.mpr hle), hlc]
      cases hquo : Coefficient.exquo? (f.coefficient (ofExponents d))
          ((order.monomialOrder n h).leadingCoeff (g.denote n)) with
      | none => exact htail
      | some q =>
        have hq := SoundDivision.mul_of_exquo? hquo
        rw [← Polynomial.coeff_denote hf.nvars_eq] at hq
        have hq' : q * (order'.monomialOrder n h').leadingCoeff ((F g).denote n) =
            (f'.denote n).coeff (d.mapDomain ρ) := by
          rw [hlc, hq, hf.denote_eq, coeff_rename]
        obtain ⟨t, hok, htn, htd⟩ := cancel_ok h hf.nvars_eq hg.nvars_eq hle hq
        obtain ⟨t', hok', htn', htd'⟩ :=
          cancel_ok h' hf.nvars_eq' hg.nvars_eq' (hle_iff.mpr hle) hq'
        refine .inr ⟨_, _, hok none, hok' none, htn, htn', ?_⟩
        rw [htd, htd', hf.denote_eq, hg.denote_eq, hρ.degree_rename, ← mapDomain_sub, map_sub,
          map_mul, MvPolynomial.rename_monomial]
    · rw [if_neg hle, if_neg (mt hle_iff.mp hle)]
      exact htail

section Run

variable (hF : ∀ g ∈ basis, Renamed ρ g (F g)) (hr : r.Over h basis)
  (hr' : r'.Over h' (basis.map F))
include hF hr hr'

private theorem cancelFirst?_renamed (hf : Renamed ρ f f') {ms : List Monomial}
    (hms : ∀ m ∈ ms, m.length = n) :
    FindAlike (Corresponding ρ) (r.cancelFirst? f ms)
      (r'.cancelFirst? f' (ms.map (Monomial.rename ρ))) := by
  induction ms with
  | nil => exact .inl ⟨rfl, rfl⟩
  | cons m ms ih =>
    obtain ⟨d, rfl⟩ := exists_ofExponents (hms m List.mem_cons_self)
    have htail := ih fun m hm => hms m (List.mem_cons_of_mem _ hm)
    have hcancel := cancel?_renamed hρ hf hF d
    rw [← hr.divisors_eq, ← hr'.divisors_eq] at hcancel
    rw [List.map_cons, rename_ofExponents, cancelFirst?, cancelFirst?, hr.tolerance_eq,
      hr'.tolerance_eq]
    rcases hcancel with ⟨hnone, hnone'⟩ | ⟨a, b, hsome, hsome', hab⟩
    · rw [hnone, hnone']
      rcases htail with ⟨hrest, hrest'⟩ | ⟨s, s', hrest, hrest', hss⟩
      · rw [hrest, hrest']
        exact .inl ⟨rfl, rfl⟩
      · rw [hrest, hrest']
        exact .inr ⟨_, _, rfl, rfl, hss⟩
    · rw [hsome, hsome']
      exact .inr ⟨_, _, rfl, rfl, d, rfl, rfl, hab⟩

omit [Coefficient R] [SoundDivision R] hF in
private theorem filter_below_renamed {ms : List Monomial} (hms : ∀ m ∈ ms, m.length = n)
    (b : Fin n →₀ ℕ) :
    (ms.map (Monomial.rename ρ)).filter (r'.order.Below · (ofExponents (b.mapDomain ρ))) =
      (ms.filter (r.order.Below · (ofExponents b))).map (Monomial.rename ρ) := by
  rw [List.filter_map]
  congr 1
  apply List.filter_congr
  intro m hm
  obtain ⟨d, rfl⟩ := exists_ofExponents (hms m hm)
  rw [Function.comp_apply, rename_ofExponents, Bool.eq_iff_iff, below_eq_true_iff h hr,
    below_eq_true_iff h' hr', hρ]

private theorem normalFormBelow_renamed (b : Fin n →₀ ℕ) (f f' : Polynomial R)
    (hf : Renamed ρ f f') : ∃ g g', (r.normalFormBelow (ofExponents b) f).result = .ok g ∧
      (r'.normalFormBelow (ofExponents (b.mapDomain ρ)) f').result = .ok g' ∧ Renamed ρ g g' := by
  generalize hb : (order.monomialOrder n h).toSyn b = x
  induction x using WellFoundedLT.induction generalizing b f f' with
  | ind x ih =>
    subst hb
    -- Corresponding monomials lie below corresponding bounds, so both searches have the same range.
    have hlen (m : Monomial) (hm : m ∈ r.order.descending f.monomials) : m.length = n :=
      Polynomial.length_of_mem_descending hf.nvars_eq hm
    have hms' : (r'.order.descending f'.monomials).filter
          (r'.order.Below · (ofExponents (b.mapDomain ρ))) =
        ((r.order.descending f.monomials).filter
          (r.order.Below · (ofExponents b))).map (Monomial.rename ρ) := by
      rw [← filter_below_renamed hρ hr hr' hlen, hr.order_eq, hr'.order_eq, hf.descending_eq hρ]
    have hbelow : ∀ m ∈ (r.order.descending f.monomials).filter (r.order.Below · (ofExponents b)),
        m.length = n := fun m hm => hlen m (List.mem_of_mem_filter hm)
    rcases cancelFirst?_renamed hρ hF hr hr' hf hbelow
      with ⟨hnone, hnone'⟩ | ⟨s, s', hsome, hsome', d, hs, hs', hss⟩
    · exact ⟨f, f', result_normalFormBelow_none rfl hnone, result_normalFormBelow_none hms' hnone',
        hf⟩
    · have hlt := (List.mem_filter.mp s.mem).2
      rw [hs, below_eq_true_iff h hr] at hlt
      rw [result_normalFormBelow_some rfl hsome, result_normalFormBelow_some hms' hsome', hs, hs']
      exact ih _ hlt d s.outcome s'.outcome hss rfl

theorem normalForm_renamed (hf : Renamed ρ f f') :
    ∃ g g', (r.normalForm f).result = .ok g ∧ (r'.normalForm f').result = .ok g' ∧
      Renamed ρ g g' := by
  have hcheck := check_ok h hr hf.nvars_eq
  have hcheck' := check_ok h' hr' hf.nvars_eq'
  have hms' : r'.order.descending f'.monomials =
      (r.order.descending f.monomials).map (Monomial.rename ρ) := by
    rw [hr.order_eq, hr'.order_eq, hf.descending_eq hρ]
  have hlen : ∀ m ∈ r.order.descending f.monomials, m.length = n :=
    fun _ hm => Polynomial.length_of_mem_descending hf.nvars_eq hm
  rcases cancelFirst?_renamed hρ hF hr hr' hf hlen
    with ⟨hnone, hnone'⟩ | ⟨s, s', hsome, hsome', d, hs, hs', hss⟩
  · exact ⟨f, f', result_normalForm_none hcheck rfl hnone,
      result_normalForm_none hcheck' hms' hnone', hf⟩
  · rw [result_normalForm_some hcheck rfl hsome, result_normalForm_some hcheck' hms' hsome', hs,
      hs']
    exact normalFormBelow_renamed hρ hF hr hr' d s.outcome s'.outcome hss

end Run

end Reducer

variable [Coefficient R] [SoundDivision R] {h : order.accepts n = true}
  {h' : order'.accepts n = true}

theorem reduce_renamed (hρ : Carries ρ (order.monomialOrder n h) (order'.monomialOrder n h'))
    {basis : List (Polynomial R)} {F : Polynomial R → Polynomial R} (hbasis : Proper n basis)
    (hF : ∀ g ∈ basis, Renamed ρ g (F g)) {f f' : Polynomial R}
    (hf : Renamed ρ f f') :
    ∃ g g', (reduce f basis order none).result = .ok g ∧
      (reduce f' (basis.map F) order' none).result = .ok g' ∧ Renamed ρ g g' := by
  obtain ⟨r, hok, hr⟩ := Reducer.ofBasis_ok h hbasis
  obtain ⟨r', hok', hr'⟩ := Reducer.ofBasis_ok h' (hbasis.renamed hF)
  obtain ⟨g, g', hg, hg', hgg⟩ := Reducer.normalForm_renamed hρ hF hr hr' hf
  refine ⟨g, g', ?_, ?_, hgg⟩
  · rw [reduce, hok]
    exact hg
  · rw [reduce, hok']
    exact hg'

end PolyIdeal
