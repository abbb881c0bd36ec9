import PolyIdeal.Basis.Groebner
import PolyIdeal.Proofs.Basis.RelatedLists
import PolyIdeal.Proofs.Reduction.Alike

/-!
# Bases of polynomials that are kept in different ways

Every part of the computation of a reduced Groebner basis depends on the terms of the polynomials
only. So alike generators have alike bases, or are refused for the same reason, whatever order,
tolerance and options there are.
-/

namespace PolyIdeal

open Monomial PolyIdeal.Polynomial Reducer

variable {R : Type} [CommRing R] [DecidableEq R] {n : ℕ}

section Elements

variable {basis basis' : List (Element R)} {e e' f f' : Element R}

private theorem coprime_alike (he : AlikeElements n e e') (hf : AlikeElements n f f') :
    Buchberger.coprime e f = Buchberger.coprime e' f' := by
  obtain ⟨-, he⟩ := he
  obtain ⟨-, hf⟩ := hf
  rw [Buchberger.coprime, Buchberger.coprime]
  generalize e.divisor = x at he ⊢
  generalize e'.divisor = x' at he ⊢
  generalize f.divisor = y at hf ⊢
  generalize f'.divisor = y' at hf ⊢
  cases he with
  | failure => cases hf <;> rfl
  | success hd =>
    cases hd
    cases hf with
    | failure => rfl
    | success hd' =>
      cases hd'
      rfl

private theorem support_alike (h : AlikeElements n e e') (order : Order) :
    e.support order = e'.support order := by
  rw [Element.support, Element.support, h.polynomial.monomials_eq]

private theorem forall₂_polynomial (h : List.Forall₂ (AlikeElements n) basis basis') :
    List.Forall₂ (Alike n) (basis.map Element.polynomial) (basis'.map Element.polynomial) := by
  rw [List.forall₂_map_left_iff, List.forall₂_map_right_iff]
  exact h.imp fun _ _ h => h.polynomial

private theorem forall₂_element {basis basis' : List (Polynomial R)}
    (h : List.Forall₂ (Alike n) basis basis') (order : Order) :
    List.Forall₂ (AlikeElements n) (basis.map (element order)) (basis'.map (element order)) := by
  rw [List.forall₂_map_left_iff, List.forall₂_map_right_iff]
  exact h.imp fun _ _ h => element_alike h order

end Elements

variable [Coefficient R]

section SPolynomial

variable {f f' g g' : Polynomial R}

private theorem raisedBy_alike (hf : Alike n f f') (e : Fin n →₀ ℕ) (lc : R) :
    SameOutcome (Alike n) (f.raisedBy (ofExponents e) lc) (f'.raisedBy (ofExponents e) lc) :=
  SameOutcome.bind_same fun c _ => hf.mulTerm (length_ofExponents _) c

private theorem sPolynomial_alike (hf : Alike n f f') (hg : Alike n g g') (order : Order)
    (tolerance : Option Tolerance) :
    SameOutcome (Alike n) (sPolynomial f g order tolerance)
      (sPolynomial f' g' order tolerance) := by
  rw [sPolynomial, sPolynomial, ← hf.leadingTerm_eq, ← hg.leadingTerm_eq]
  refine SameOutcome.bind_same fun lf hlf => SameOutcome.bind_same fun lg hlg => ?_
  obtain ⟨lmf, lcf⟩ := lf
  obtain ⟨lmg, lcg⟩ := lg
  obtain ⟨d, rfl⟩ := exists_ofExponents
    ((length_of_mem_monomials (mem_monomials_of_leadingTerm hlf)).trans hf.nvars_eq)
  obtain ⟨e, rfl⟩ := exists_ofExponents
    ((length_of_mem_monomials (mem_monomials_of_leadingTerm hlg)).trans hg.nvars_eq)
  simp only [lcm_ofExponents, shifts_ofExponents]
  refine SameOutcome.bind_same fun _ _ => ?_
  refine (raisedBy_alike hf _ lcf).bind fun _ _ _ hraised => ?_
  refine (raisedBy_alike hg _ lcg).bind fun _ _ _ hraised' => ?_
  exact (hraised.sub hraised').bind fun _ _ _ hs => hs.chop tolerance

end SPolynomial

section Completion

private theorem relatedJoins_join (order : Order) (config : Config) :
    Completion.RelatedJoins (AlikeElements (R := R) n)
      fun basis _ f g => Buchberger.join order config basis f g := by
  intro basis basis' f f' g g' _ hbasis hf hg
  simp only [Buchberger.join, coprime_alike hf hg]
  split
  · exact .success .none
  · refine (ofElements_alike hbasis order config.tolerance).result_lift_bind fun r r' _ hr => ?_
    refine (sPolynomial_alike hf.polynomial hg.polynomial order
      config.tolerance).result_lift_bind fun s s' _ hs => ?_
    refine (normalForm_alike hr hs).result_bind fun h h' _ hh => ?_
    refine (hh.chop config.tolerance).result_lift_bind fun p p' _ hp => ?_
    rw [hp.isZero_eq]
    split
    · exact .success .none
    · exact .success (.some (element_alike hp order))

theorem buchberger_alike {generators generators' : List (Polynomial R)}
    (h : List.Forall₂ (Alike n) generators generators') (order : Order) (config : Config) :
    SameOutcome (List.Forall₂ (Alike n)) (buchberger generators order config).result
      (buchberger generators' order config).result := by
  have hbasis := forall₂_element h order
  rw [buchberger, buchberger]
  refine (SameOutcome.mapM h fun _ _ h =>
    SameOutcome.of_eq (h.leadingMonomial_eq order)).result_lift_bind fun _ _ _ _ => ?_
  refine (ofElements_alike hbasis order config.tolerance).result_lift_bind fun _ _ _ _ => ?_
  rw [← hbasis.length_eq]
  refine (Completion.complete_related (fun _ _ h => h.monomial?_eq)
    (relatedJoins_join order config) _ _ _ hbasis).result_bind fun _ _ _ hcompleted => ?_
  exact .success (forall₂_polynomial hcompleted)

end Completion

section Autoreduction

variable {basis basis' : List (Polynomial R)}

private theorem relatedChanges_reduceByOthers (order : Order) (tolerance : Option Tolerance) :
    Settlement.RelatedChanges (AlikeElements (R := R) n) (reduceByOthers order tolerance) := by
  intro others others' g g' hothers hg
  rw [reduceByOthers, reduceByOthers]
  refine (ofElements_alike hothers order tolerance).result_lift_bind fun r r' _ hr => ?_
  refine (normalForm_alike hr hg.polynomial).result_bind fun h h' _ hh => ?_
  refine (hh.chop tolerance).result_lift_bind fun p p' _ hp => ?_
  rw [hp.agrees_congr hg.polynomial, hp.isZero_eq]
  split
  · exact .success .kept
  · split
    · exact .success .dropped
    · exact .success (.replaced (element_alike hp order))

private theorem autoreduce_alike (h : List.Forall₂ (Alike n) basis basis') (order : Order)
    (tolerance : Option Tolerance) :
    SameOutcome (List.Forall₂ (Alike n)) (autoreduce basis order tolerance).result
      (autoreduce basis' order tolerance).result := by
  rw [autoreduce, autoreduce]
  refine (Settlement.settle_related (relatedChanges_reduceByOthers order tolerance)
    (fun _ _ h => support_alike h order) _ _ (forall₂_element h order)).result_bind
    fun _ _ _ hsettled => ?_
  exact .success (forall₂_polynomial hsettled)

end Autoreduction

section Outcome

variable {basis basis' generators generators' : List (Polynomial R)}

private theorem nonzeroGenerators_alike (h : List.Forall₂ (Alike n) generators generators')
    (tolerance : Option Tolerance) :
    SameOutcome (List.Forall₂ (Alike n)) (nonzeroGenerators generators tolerance)
      (nonzeroGenerators generators' tolerance) := by
  rw [nonzeroGenerators, nonzeroGenerators]
  refine (SameOutcome.mapM h fun _ _ h => h.chop tolerance).bind fun chopped chopped' _ hc => ?_
  have hnonzero : List.Forall₂ (Alike n) (chopped.filter fun g => !g.isZero)
      (chopped'.filter fun g => !g.isZero) :=
    List.rel_filter (fun _ _ h => by simp only [h.isZero_eq]) hc
  simp only [map_eq_of_forall₂ hnonzero fun _ _ h => h.nvars_eq_nvars]
  split
  · exact .failure _
  · exact .success hnonzero

private theorem normalized_alike {order : Order} (horder : order.accepts n = true)
    (h : List.Forall₂ (Alike n) basis basis') :
    SameOutcome (List.Forall₂ (Alike n)) (normalized order basis) (normalized order basis') := by
  rw [normalized.eq_def, normalized.eq_def]
  cases h with
  | nil => exact .failure _
  | cons hg hrest =>
    dsimp only
    split
    · exact SameOutcome.mapM (.cons hg hrest) fun _ _ h => h.monic horder
    · exact .success (.cons hg hrest)

omit [Coefficient R] in
private theorem sortedByLeading_alike (h : List.Forall₂ (Alike n) basis basis') (order : Order) :
    SameOutcome (List.Forall₂ (Alike n)) (sortedByLeading order basis)
      (sortedByLeading order basis') := by
  have hled : SameOutcome
      (List.Forall₂ fun a b : List ℕ × Polynomial R => a.1 = b.1 ∧ Alike n a.2 b.2)
      (basis.mapM fun g => do return (order.rank (← g.leadingMonomial order), g))
      (basis'.mapM fun g => do return (order.rank (← g.leadingMonomial order), g)) := by
    refine SameOutcome.mapM h fun g g' hg => ?_
    rw [hg.leadingMonomial_eq order]
    exact SameOutcome.bind_same fun _ _ => .success ⟨rfl, hg⟩
  rw [sortedByLeading, sortedByLeading]
  refine hled.bind fun l l' _ hl => .success ?_
  rw [List.forall₂_map_left_iff, List.forall₂_map_right_iff]
  exact (forall₂_mergeSort hl fun a b a' b' ha hb => by rw [ha.1, hb.1]).imp fun _ _ h => h.2

section Verify

variable {r r' : Reducer R} (hr : AlikeReducers n r r')
include hr

private theorem annihilates_alike {f f' : Polynomial R} (hf : Alike n f f') :
    SameOutcome Eq (r.annihilates f).result (r'.annihilates f').result := by
  rw [annihilates, annihilates, ← hr.tolerance_eq]
  refine (normalForm_alike hr hf).result_bind fun _ _ _ hh => ?_
  refine (hh.chop r.tolerance).result_lift_bind fun _ _ _ hp => ?_
  exact .success hp.isZero_eq

private theorem allVanish_alike (h : List.Forall₂ (Alike n) generators generators') :
    SameOutcome Eq (allVanish r generators).result (allVanish r' generators').result := by
  induction h with
  | nil => exact .success rfl
  | cons hg _ ih =>
    rw [allVanish, allVanish]
    refine (annihilates_alike hr hg).result_bind ?_
    rintro vanishes _ _ rfl
    cases vanishes with
    | false => exact .success rfl
    | true => exact ih

private theorem joinsVanish_alike (h : List.Forall₂ (Alike n) basis basis') (pairs : List (ℕ × ℕ)) :
    SameOutcome Eq (joinsVanish r basis pairs).result (joinsVanish r' basis' pairs).result := by
  induction pairs with
  | nil => exact .success rfl
  | cons p pairs ih =>
    obtain ⟨i, j⟩ := p
    have hi := getElem?_related h i
    have hj := getElem?_related h j
    rw [joinsVanish, joinsVanish]
    generalize basis[i]? = x at hi ⊢
    generalize basis'[i]? = x' at hi ⊢
    generalize basis[j]? = y at hj ⊢
    generalize basis'[j]? = y' at hj ⊢
    cases hi with
    | none => exact ih
    | some hf =>
      cases hj with
      | none => exact ih
      | some hg =>
        simp only [← hr.order_eq, ← hr.tolerance_eq]
        refine (sPolynomial_alike hf hg r.order r.tolerance).result_lift_bind fun _ _ _ hs => ?_
        refine (annihilates_alike hr hs).result_bind ?_
        rintro vanishes _ _ rfl
        cases vanishes with
        | false => exact .success rfl
        | true => exact ih

end Verify

private theorem isGroebnerBasis_alike (h : List.Forall₂ (Alike n) basis basis') (order : Order)
    (tolerance : Option Tolerance) :
    SameOutcome Eq (isGroebnerBasis basis order tolerance).result
      (isGroebnerBasis basis' order tolerance).result := by
  rw [isGroebnerBasis, isGroebnerBasis, ← h.length_eq]
  exact (ofBasis_alike h order tolerance).result_lift_bind fun _ _ _ hr =>
    joinsVanish_alike hr h _

private theorem verify_alike (hgenerators : List.Forall₂ (Alike n) generators generators')
    (hbasis : List.Forall₂ (Alike n) basis basis') (order : Order)
    (tolerance : Option Tolerance) :
    SameOutcome Eq (verify generators basis order tolerance).result
      (verify generators' basis' order tolerance).result := by
  rw [verify, verify]
  refine (ofBasis_alike hbasis order tolerance).result_lift_bind fun _ _ _ hr => ?_
  refine (allVanish_alike hr hgenerators).result_bind ?_
  rintro vanish _ _ rfl
  cases vanish with
  | false => exact .failure _
  | true =>
    refine (isGroebnerBasis_alike hbasis order tolerance).result_bind ?_
    rintro groebner _ _ rfl
    cases groebner with
    | false => exact .failure _
    | true => exact .success rfl

private theorem accepts_of_buchberger {g : Polynomial R} {order : Order} {config : Config}
    (h : (buchberger (g :: generators) order config).result = .ok basis) :
    order.accepts g.nvars = true := by
  obtain ⟨_, hleading, -⟩ := Traced.exists_of_result_bind h
  change (g :: generators).mapM (leadingMonomial order) = _ at hleading
  rw [List.mapM_cons] at hleading
  obtain ⟨_, hlm, -⟩ := exists_of_bind_ok hleading
  rw [leadingMonomial] at hlm
  cases hlt : g.leadingTerm order with
  | error e =>
    rw [hlt] at hlm
    cases hlm
  | ok t => exact accepts_of_leadingTerm hlt

private theorem sorted_alike (hgenerators : List.Forall₂ (Alike n) generators generators')
    (hbasis : List.Forall₂ (Alike n) basis basis') (order : Order) (config : Config) :
    SameOutcome (List.Forall₂ (Alike n))
      (do
        let basis ← Traced.lift (sortedByLeading order basis)
        if config.check then
          verify generators basis order config.tolerance
        return basis : Traced (Event R) (List (Polynomial R))).result
      (do
        let basis ← Traced.lift (sortedByLeading order basis')
        if config.check then
          verify generators' basis order config.tolerance
        return basis : Traced (Event R) (List (Polynomial R))).result := by
  refine (sortedByLeading_alike hbasis order).result_lift_bind fun _ _ _ hsorted => ?_
  cases config.check with
  | false => exact .success hsorted
  | true =>
    exact (verify_alike hgenerators hsorted order config.tolerance).result_bind
      fun _ _ _ _ => .success hsorted

theorem groebnerBasis_alike (h : List.Forall₂ (Alike n) generators generators') (order : Order)
    (config : Config) :
    SameOutcome (List.Forall₂ (Alike n)) (groebnerBasis generators order config).result
      (groebnerBasis generators' order config).result := by
  rw [groebnerBasis, groebnerBasis]
  refine (nonzeroGenerators_alike h config.tolerance).result_lift_bind fun fs fs' _ hfs => ?_
  cases hfs with
  | nil => exact .success .nil
  | cons hg hrest =>
    have hfs := List.Forall₂.cons hg hrest
    simp only [List.isEmpty_cons, Bool.false_eq_true, if_false]
    refine (buchberger_alike hfs order config).result_bind fun _ _ hcompleted hb => ?_
    -- Leading coefficients are compared only where the order fits, which the completion has found.
    have horder := hg.nvars_eq ▸ accepts_of_buchberger hcompleted
    have hautoreduced := autoreduce_alike hb order config.tolerance
    -- The note between the two parts is not part of the outcome.
    refine SameOutcome.result_bind (show SameOutcome _ (Traced.note _ _).result
      (Traced.note _ _).result from hautoreduced) fun _ _ _ hbasis => ?_
    cases config.monic with
    | false => exact sorted_alike hfs hbasis order config
    | true =>
      exact (normalized_alike horder hbasis).result_lift_bind fun _ _ _ hnormalized =>
        sorted_alike hfs hnormalized order config

end Outcome

end PolyIdeal
