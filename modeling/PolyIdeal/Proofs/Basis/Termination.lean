import PolyIdeal.Proofs.Basis.Groebner
import PolyIdeal.Proofs.Basis.Truncation
import PolyIdeal.Proofs.Reduction.Loop

/-!
# Termination

Over the rationals every loop of the computation of a basis comes to an end, whatever rational number
the tolerance is. With a tolerance the result need not be a basis of the ideal, and that is all that
the check can find.
-/

namespace PolyIdeal

open Monomial MonomialOrder PolyIdeal.Polynomial Reducer

section Computes

variable {R : Type} [CommRing R] [DecidableEq R] [Coefficient R]

/-- A basis sorted and verified, if that is wanted. -/
def arranged (generators basis : List (Polynomial R)) (order : Order) (config : Config) :
    Traced (Event R) (List (Polynomial R)) := do
  let basis ← Traced.lift (sortedByLeading order basis)
  if config.check then verify generators basis order config.tolerance
  return basis

/-- What is done with an autoreduced basis in the end. -/
def finish (generators basis : List (Polynomial R)) (order : Order) (config : Config) :
    Traced (Event R) (List (Polynomial R)) := do
  let basis ← if config.monic then Traced.lift (normalized order basis) else pure basis
  arranged generators basis order config

/-- A computation in which the completion and the autoreduction are loops that come to an end. -/
inductive Computes (generators : List (Polynomial R)) (order : Order) (config : Config) :
    Except Failure (List (Polynomial R)) → Prop
  | zero (hnonzero : nonzeroGenerators generators config.tolerance = .ok []) :
    Computes generators order config (.ok [])
  | ends {nonzero : List (Polynomial R)} {scan : Completion.Scan (Element R)}
      {settled : List (Element R)}
      (hnonzero : nonzeroGenerators generators config.tolerance = .ok nonzero)
      (hne : nonzero ≠ [])
      (hcompletes : Loop
        (Completion.Scan.next fun basis _ f g => Buchberger.join order config basis f g)
        ⟨nonzero.map (element order), []⟩ (.ok scan))
      (hsettles : Loop (Settlement.next (reduceByOthers order config.tolerance))
        ((scan.elements.map Element.polynomial).map (element order)) (.ok settled)) :
    Computes generators order config
      (finish nonzero (settled.map Element.polynomial) order config).result

theorem Computes.unique {generators : List (Polynomial R)} {order : Order} {config : Config}
    {outcome outcome' : Except Failure (List (Polynomial R))}
    (h : Computes generators order config outcome)
    (h' : Computes generators order config outcome') : outcome = outcome' := by
  cases h with
  | zero hnonzero =>
    cases h' with
    | zero => rfl
    | ends hnonzero' hne =>
      cases hnonzero.symm.trans hnonzero'
      exact absurd rfl hne
  | ends hnonzero hne hcompletes hsettles =>
    cases h' with
    | zero hnonzero' =>
      cases hnonzero.symm.trans hnonzero'
      exact absurd rfl hne
    | ends hnonzero' _ hcompletes' hsettles' =>
      cases hnonzero.symm.trans hnonzero'
      cases hcompletes.unique hcompletes'
      cases hsettles.unique hsettles'
      rfl

end Computes

variable {n : ℕ} {order : Order} (h : order.accepts n = true)
  {tolerance : Option Tolerance} (htol : IsRational tolerance) {basis : List (Polynomial ℚ)}
  {generators : List (Polynomial ℚ)}

section Generators

variable (hn : ∀ g ∈ generators, g.nvars = n)
include htol hn

private theorem nonzeroGenerators_chopOf : nonzeroGenerators generators tolerance =
    nonzeroGenerators (generators.map (chopOf tolerance)) none := by
  have hchop : generators.mapM (chop tolerance) = .ok (generators.map (chopOf tolerance)) :=
    mapM_ok fun g hg => (chopOf_spec htol (hn g hg)).1
  have hnone : (generators.map (chopOf tolerance)).mapM (chop none) =
      .ok (generators.map (chopOf tolerance)) := by
    rw [mapM_ok (g := id) fun g _ => chop_none g, List.map_id]
  rw [nonzeroGenerators, nonzeroGenerators, hchop, hnone]

private theorem nonzeroGenerators_truncated :
    ∃ nonzero, nonzeroGenerators generators tolerance = .ok nonzero ∧
      Truncated n tolerance nonzero ∧
      ((∃ g ∈ generators, ∃ c ∈ g.coefficients, Exceeds tolerance c) → nonzero ≠ []) := by
  have hchopped : ∀ g ∈ generators.map (chopOf tolerance), g.nvars = n := by
    intro g hg
    obtain ⟨p, hp, rfl⟩ := List.mem_map.mp hg
    exact (chopOf_spec htol (hn p hp)).2.1
  rw [nonzeroGenerators_chopOf htol hn, nonzeroGenerators_ok hchopped]
  refine ⟨_, rfl, ⟨proper_filter_nonzero hchopped, fun g hg => ?_⟩, fun habove => ?_⟩
  · obtain ⟨p, hp, rfl⟩ := List.mem_map.mp (List.mem_of_mem_filter hg)
    exact (chopOf_spec htol (hn p hp)).2.2.isChopped
  · obtain ⟨g, hg, c, hc, hexceeds⟩ := habove
    obtain ⟨⟨m, c⟩, hterm, rfl⟩ := List.mem_map.mp hc
    obtain ⟨e, rfl⟩ := exists_ofExponents ((length_of_mem_terms hterm).trans (hn g hg))
    obtain ⟨hcoeff, hne⟩ := mem_terms.mp hterm
    rw [← coeff_denote (hn g hg)] at hcoeff
    obtain ⟨-, hchopn, hchop⟩ := chopOf_spec htol (hn g hg)
    -- The coefficient is kept, so that the generator is not left out.
    have hkept : (chopOf tolerance g).isZero = false := by
      rw [isZero_eq_false_iff hchopn]
      intro hzero
      have hsame := hchop.keeps e (hcoeff ▸ hexceeds)
      rw [hzero, hcoeff] at hsame
      exact hne hsame.symm
    apply List.ne_nil_of_mem
    exact List.mem_filter.mpr ⟨List.mem_map.mpr ⟨g, hg, rfl⟩, by simp [hkept]⟩

end Generators

section Loops

open Buchberger Completion Settlement

include h

private theorem buchberger_truncated {config : Config} (hconfig : IsRational config.tolerance)
    (hgenerators : Truncated n config.tolerance generators) (hne : generators ≠ []) :
    ∃ completed joined,
      Loop (Scan.next fun basis _ f g => join order config basis f g)
        ⟨generators.map (element order), []⟩ (.ok ⟨completed.map (element order), joined⟩) ∧
      (buchberger generators order config).result = .ok completed ∧ completed ≠ [] ∧
      Truncated n config.tolerance completed := by
  have hstart : TruncatedElements n order config.tolerance (generators.map (element order)) :=
    ⟨generators, rfl, hne, hgenerators⟩
  obtain ⟨_, joined, hloop, hcomplete, completed, rfl, hne', hcompleted⟩ :=
    loop_complete_ends (fun _ _ _ _ => truncatedElements_join h hconfig) hstart
  refine ⟨completed, joined, hloop, ?_, hne', hcompleted⟩
  obtain ⟨reducer, -, hreducer⟩ := ofElements_tolerance h hgenerators.proper config.tolerance
  rw [buchberger, Traced.result_lift_bind (mapM_leadingMonomial h hgenerators.proper)]
  dsimp only
  rw [Traced.result_lift_bind hreducer, Traced.result_bind hcomplete, map_polynomial_element]
  rfl

include htol

private theorem autoreduce_truncated (hbasis : Truncated n tolerance basis) (hne : basis ≠ []) :
    ∃ settled, Loop (next (reduceByOthers order tolerance)) (basis.map (element order))
        (.ok (settled.map (element order))) ∧
      (autoreduce basis order tolerance).result = .ok settled ∧ settled ≠ [] ∧
      Truncated n tolerance settled := by
  have hstart : TruncatedElements n order tolerance (basis.map (element order)) :=
    ⟨basis, rfl, hne, hbasis⟩
  obtain ⟨_, hloop, hsettle, ⟨settled, rfl, hne', hsettled⟩, -⟩ :=
    loop_settle_ends (fun _ => truncatedElements_change h htol) hstart
  refine ⟨settled, hloop, ?_, hne', hsettled⟩
  rw [autoreduce, Traced.result_bind hsettle, map_polynomial_element]
  rfl

end Loops

section Verify

include h htol

private theorem annihilates_total {r : Reducer ℚ} (hr : r.Over h basis) {f : Polynomial ℚ}
    (hf : f.nvars = n) :
    ∃ b, (({ r with tolerance } : Reducer ℚ).annihilates f).result = .ok b := by
  obtain ⟨f₁, f₂, hf₁, hchop, -⟩ := truncatedForm_ok h htol hr hf
  refine ⟨f₂.isZero, ?_⟩
  rw [annihilates, Traced.result_bind hf₁, Traced.result_lift_bind hchop]
  rfl

private theorem allVanish_total {r : Reducer ℚ} (hr : r.Over h basis) {fs : List (Polynomial ℚ)}
    (hfs : ∀ f ∈ fs, f.nvars = n) :
    ∃ b, (allVanish { r with tolerance } fs).result = .ok b := by
  induction fs with
  | nil => exact ⟨true, rfl⟩
  | cons f fs ih =>
    obtain ⟨b, hb⟩ := annihilates_total h htol hr (hfs f (by simp))
    rw [allVanish, Traced.result_bind hb]
    cases b with
    | false => exact ⟨false, rfl⟩
    | true => exact ih fun f' hf' => hfs f' (List.mem_cons_of_mem f hf')

private theorem joinsVanish_total {r : Reducer ℚ} (hr : r.Over h basis) (pairs : List (ℕ × ℕ)) :
    ∃ b, (joinsVanish { r with tolerance } basis pairs).result = .ok b := by
  obtain rfl := hr.order_eq
  induction pairs with
  | nil => exact ⟨true, rfl⟩
  | cons pair pairs ih =>
    obtain ⟨i, j⟩ := pair
    rw [joinsVanish]
    cases hi : basis[i]? with
    | none => exact ih
    | some p =>
      cases hj : basis[j]? with
      | none => exact ih
      | some q =>
        obtain ⟨s, hs, hsn⟩ := sPolynomial_truncated h htol hr.proper (List.mem_of_getElem? hi)
          (List.mem_of_getElem? hj)
        obtain ⟨b, hb⟩ := annihilates_total h htol hr hsn
        dsimp only
        rw [Traced.result_lift_bind hs, Traced.result_bind hb]
        cases b with
        | false => exact ⟨false, rfl⟩
        | true => exact ih

private theorem verify_total (hbasis : Proper n basis) (hn : ∀ g ∈ generators, g.nvars = n) :
    (verify generators basis order tolerance).result = .ok () ∨
      ∃ cause, (verify generators basis order tolerance).result =
        .error (.arithmetic cause) := by
  obtain ⟨r, hr, hok⟩ := ofElements_tolerance h hbasis tolerance
  have hok' : ofBasis order tolerance basis = .ok { r with tolerance } := hok
  obtain ⟨b, hb⟩ := allVanish_total h htol hr hn
  obtain ⟨c, hc⟩ := joinsVanish_total h htol hr (criticalPairs basis.length)
  have hc' : (isGroebnerBasis basis order tolerance).result = .ok c := by
    rw [isGroebnerBasis, Traced.result_lift_bind hok']
    exact hc
  rw [verify, Traced.result_lift_bind hok', Traced.result_bind hb]
  cases b with
  | false => exact .inr ⟨_, rfl⟩
  | true =>
    simp only [Bool.not_true, Bool.false_eq_true, if_false]
    rw [Traced.result_bind hc']
    cases c with
    | false => exact .inr ⟨_, rfl⟩
    | true => exact .inl rfl

end Verify

section Finish

variable {config : Config} (hconfig : IsRational config.tolerance)
include h

private theorem proper_map_monicOf (hbasis : Proper n basis) :
    Proper n (basis.map (monicOf order)) := by
  have hspec (g : Polynomial ℚ) (hg : g ∈ basis) := monicOf_spec h (hbasis.nvars_eq g hg)
    (hbasis.isUnit_leadingCoeff (order.monomialOrder n h) _ (denote_mem_denotations hg))
  constructor
  · intro r hr
    obtain ⟨g, hg, rfl⟩ := List.mem_map.mp hr
    exact (hspec g hg).2.1
  · intro r hr hzero
    obtain ⟨g, hg, rfl⟩ := List.mem_map.mp hr
    obtain ⟨-, -, -, -, -, hlc⟩ := hspec g hg
    rw [hzero, leadingCoeff_zero] at hlc
    exact zero_ne_one hlc

/-- A list of elements other than zero that is not empty, or a failed check. -/
private def IsFinished (n : ℕ) (config : Config)
    (outcome : Except Failure (List (Polynomial ℚ))) : Prop :=
  (∃ basis, outcome = .ok basis ∧ Proper n basis ∧ basis ≠ []) ∨
    config.check = true ∧ ∃ cause, outcome = .error (.arithmetic cause)

section Spec

variable (hn : ∀ g ∈ generators, g.nvars = n)
include hconfig hn

private theorem arranged_spec (hbasis : Proper n basis) (hne : basis ≠ []) :
    IsFinished n config (arranged generators basis order config).result := by
  obtain ⟨sorted, hsorted, hperm, -⟩ := sortedByLeading_ok h hbasis
  have hproper : Proper n sorted := hbasis.subset hperm.subset
  have hne' : sorted ≠ [] := by
    rintro rfl
    exact hne hperm.symm.eq_nil
  rw [arranged, Traced.result_lift_bind hsorted]
  by_cases hcheck : config.check = true
  · rw [if_pos hcheck]
    rcases verify_total h hconfig hproper hn with hok | ⟨cause, herror⟩
    · rw [Traced.result_bind hok]
      exact .inl ⟨sorted, rfl, hproper, hne'⟩
    · rw [Traced.result_bind_error herror]
      exact .inr ⟨hcheck, cause, rfl⟩
  · rw [if_neg hcheck]
    exact .inl ⟨sorted, rfl, hproper, hne'⟩

private theorem finish_spec (hbasis : Proper n basis) (hne : basis ≠ []) :
    IsFinished n config (finish generators basis order config).result := by
  rw [finish]
  by_cases hmonic : config.monic = true
  · rw [if_pos hmonic, Traced.result_lift_bind (normalized_ok h hbasis hne)]
    exact arranged_spec h hconfig hn (proper_map_monicOf h hbasis) (by simpa using hne)
  · rw [if_neg hmonic]
    exact arranged_spec h hconfig hn hbasis hne

end Spec

end Finish

include h in
/-- The computation runs through its loops and finds elements other than zero, or its check fails. -/
theorem groebnerBasis_computes {config : Config} (hconfig : IsRational config.tolerance)
    (hn : ∀ g ∈ generators, g.nvars = n) :
    Computes generators order config (groebnerBasis generators order config).result ∧
      ((∃ basis, (groebnerBasis generators order config).result = .ok basis ∧ Proper n basis ∧
          ((∃ g ∈ generators, ∃ c ∈ g.coefficients, Exceeds config.tolerance c) → basis ≠ [])) ∨
        config.check = true ∧
          ∃ cause, (groebnerBasis generators order config).result = .error (.arithmetic cause)) := by
  obtain ⟨nonzero, hnonzero, htruncated, habove⟩ := nonzeroGenerators_truncated hconfig hn
  by_cases hne : nonzero = []
  · subst hne
    have hresult : (groebnerBasis generators order config).result = .ok [] := by
      rw [groebnerBasis, Traced.result_lift_bind hnonzero]
      rfl
    rw [hresult]
    exact ⟨.zero hnonzero, .inl ⟨[], rfl, ⟨by simp, by simp⟩, habove⟩⟩
  · obtain ⟨completed, joined, hcompletes, hcompleted, hne', htruncated'⟩ :=
      buchberger_truncated h hconfig htruncated hne
    obtain ⟨settled, hsettles, hsettled, hne'', htruncated''⟩ :=
      autoreduce_truncated h hconfig htruncated' hne'
    have hresult : (groebnerBasis generators order config).result =
        (finish nonzero settled order config).result := by
      rw [groebnerBasis, Traced.result_lift_bind hnonzero,
        if_neg (by simpa using hne), Traced.result_bind hcompleted,
        Traced.result_note_bind hsettled]
      rfl
    rw [hresult]
    constructor
    · have hstart : ((completed.map (element order)).map Element.polynomial).map (element order) =
          completed.map (element order) := by rw [Buchberger.map_polynomial_element]
      have hcomputes := Computes.ends hnonzero hne hcompletes (hstart ▸ hsettles)
      rwa [Buchberger.map_polynomial_element] at hcomputes
    · have hfinished := finish_spec h hconfig htruncated.proper.nvars_eq htruncated''.proper hne''
      refine hfinished.imp_left fun hok => ?_
      obtain ⟨basis, hbasis, hproper, hbasisne⟩ := hok
      exact ⟨basis, hbasis, hproper, fun _ => hbasisne⟩

/-- How the computation of a basis over the rationals comes to an end. -/
structure Terminates (n : ℕ) (generators : List (Polynomial ℚ)) (order : Order) (config : Config) :
    Prop where
  /-- The loops of the completion and of the autoreduction end, and with what is computed. -/
  computes : ∀ outcome, Computes generators order config outcome ↔
    outcome = (groebnerBasis generators order config).result
  /-- So does the loop of every reduction. -/
  reduces : ∀ basis reducer f, (∀ g ∈ basis, g.nvars = n ∧ g.isZero = false) → f.nvars = n →
    ofBasis order config.tolerance basis = .ok reducer →
      Loop (fun f : Polynomial ℚ => (reducer.step? f).result) f (reducer.normalForm f).result
  /-- There are elements, none of them zero, if a coefficient of a generator is above the tolerance.
  Only the check can fail. -/
  finishes : (∃ basis, (groebnerBasis generators order config).result = .ok basis ∧
      (∀ g ∈ basis, g.nvars = n ∧ g.isZero = false) ∧
      ((∃ g ∈ generators, ∃ c ∈ g.coefficients, Exceeds config.tolerance c) → basis ≠ [])) ∨
    config.check = true ∧
      ∃ cause, (groebnerBasis generators order config).result = .error (.arithmetic cause)

/-- With a rational tolerance, or without one, the computation of a basis terminates. -/
theorem groebnerBasis_terminates {config : Config} (h : order.accepts n = true)
    (hn : ∀ g ∈ generators, g.nvars = n) (hconfig : IsRational config.tolerance) :
    Terminates n generators order config := by
  obtain ⟨hcomputes, houtcome⟩ := groebnerBasis_computes h hconfig hn
  constructor
  · intro outcome
    constructor
    · intro hother
      exact hother.unique hcomputes
    · rintro rfl
      exact hcomputes
  · intro basis reducer f hbasis hf hreducer
    have hproper : Proper n basis :=
      .of_isZero (fun g hg => (hbasis g hg).1) fun g hg => (hbasis g hg).2
    obtain ⟨r, hr, hok⟩ := ofElements_tolerance h hproper config.tolerance
    cases hreducer.symm.trans hok
    exact loop_normalForm_tolerance h hr hf config.tolerance
  · refine houtcome.imp_left fun hok => ?_
    obtain ⟨basis, hresult, hproper, hne⟩ := hok
    refine ⟨basis, hresult, fun g hg => ⟨hproper.nvars_eq g hg, ?_⟩, hne⟩
    exact (isZero_eq_false_iff (hproper.nvars_eq g hg)).mpr (hproper.denote_ne_zero g hg)

/-- A hyperbola and a line of which one coefficient is within the tolerance. -/
theorem groebnerBasis_terminates_half :
    Terminates 2 [.multinomial (.ofTerms 2 (by decide) [([1, 1], 1), ([0, 0], -1)]),
        .multinomial (.ofTerms 2 (by decide) [([1, 0], 3), ([0, 1], 1 / 4)])] .degRevlex
      { tolerance := some (.number (.rational (1 / 2))), check := true } := by
  apply groebnerBasis_terminates rfl
  · intro g hg
    rcases List.mem_pair.mp hg with rfl | rfl <;> rfl
  · intro t ht
    cases ht
    exact ⟨1 / 2, rfl⟩

end PolyIdeal
