import PolyIdeal.Proofs.Basis.Groebner

/-!
# Constants in a basis

Over a field everything reduces to zero modulo a constant. So nothing is appended once the completion
has found one, autoreduction drops all other elements, and the constant is the basis.
-/

namespace PolyIdeal

open Monomial MonomialOrder PolyIdeal.Polynomial Reducer Buchberger Settlement Completion

variable {R : Type} [CommRing R] [DecidableEq R] {n : ℕ}

theorem denote_of_terms_constant {p : Polynomial R} {c : R}
    (hterms : p.terms = [(Monomial.unit n, c)]) : p.denote n = MvPolynomial.C c := by
  rw [denote, hterms, sumOfTerms, List.map_singleton, List.sum_singleton, unit_eq_ofExponents,
    exponents_ofExponents]
  rfl

variable [Coefficient R] [FieldCoefficient R] {order : Order} (h : order.accepts n = true)
  {basis : List (Polynomial R)} {p q k : Polynomial R} {c : R}
  (hterms : k.terms = [(Monomial.unit n, c)]) {config : Config} (htol : config.tolerance = none)

section Member

variable (hk : k ∈ basis)
include hterms hk

private theorem eq_zero_of_irreducible {m : MonomialOrder (Fin n)} {F : MvPolynomial (Fin n) R}
    (hirr : Irreducible m (denotations n basis) F) : F = 0 := by
  have hmem : MvPolynomial.C c ∈ denotations n basis :=
    denote_of_terms_constant hterms ▸ denote_mem_denotations hk
  have hc : c ≠ 0 := (mem_terms.mp (hterms ▸ List.mem_singleton_self _)).2
  rw [← MvPolynomial.support_eq_empty, Finset.eq_empty_iff_forall_notMem]
  intro e he
  refine hirr e he ⟨_, hmem, ?_, ?_⟩
  · rw [degree_C]
    exact fun i => Nat.zero_le (e i)
  · rw [leadingCoeff_C]
    exact (FieldCoefficient.isUnit_of_ne_zero hc).dvd

variable (hbasis : Proper n basis)
include h hbasis

include htol in
private theorem result_join_of_constant (hp : p ∈ basis) (hq : q ∈ basis) :
    (join order config (basis.map (element order)) (element order p) (element order q)).result =
      .ok none := by
  have hunit (g : Polynomial R) (hg : g ∈ basis) :=
    hbasis.isUnit_leadingCoeff (order.monomialOrder n h) _ (denote_mem_denotations hg)
  have hjoin := join_spec h hbasis hp hq htol
  generalize (join order config (basis.map (element order)) (element order p)
    (element order q)).result = found at hjoin ⊢
  cases hjoin with
  | passedOver => rfl
  | refused hpq => exact absurd ⟨hunit p hp, hunit q hq⟩ hpq
  | joins => rfl
  | remainder _ _ hr0 _ hirr => exact absurd (eq_zero_of_irreducible hterms hk hirr) hr0

include htol in
theorem result_complete_of_constant (pending : List (ℕ × ℕ)) :
    (complete Element.monomial? (fun elements _ f g => join order config elements f g)
      (basis.map (element order)) pending).result = .ok (basis.map (element order)) := by
  apply result_complete_of_none
  intro pair _ f g hf hg
  rw [List.getElem?_map, Option.map_eq_some_iff] at hf hg
  obtain ⟨p, hp, rfl⟩ := hf
  obtain ⟨q, hq, rfl⟩ := hg
  exact result_join_of_constant h hterms htol hk hbasis (List.mem_of_getElem? hp)
    (List.mem_of_getElem? hq)

private theorem reduceByOthers_of_constant (hp : p.nvars = n) (hp0 : p.denote n ≠ 0) :
    (reduceByOthers order none (basis.map (element order)) (element order p)).result =
      .ok .dropped := by
  obtain ⟨change, hresult, hchange⟩ := reduceByOthers_spec h hp hbasis
  cases hchange with
  | kept hirr => exact absurd (eq_zero_of_irreducible hterms hk hirr) hp0
  | dropped => exact hresult
  | replaced hlowers hne =>
    exact absurd (eq_zero_of_irreducible hterms hk hlowers.2.2.irreducible) hne

end Member

include h in
private theorem reduceByOthers_nil (hp : p.nvars = n) (hp0 : p.denote n ≠ 0) :
    (reduceByOthers order none [] (element order p)).result = .ok .kept := by
  have hsame {F : MvPolynomial (Fin n) R} (hF : IsNormalForm (order.monomialOrder n h)
      (denotations n ([] : List (Polynomial R))) (p.denote n) F) : F = p.denote n := by
    have hsub := hF.sub_mem_ideal
    rw [denotations_nil, Ideal.span_empty, Ideal.mem_bot, sub_eq_zero] at hsub
    exact hsub.symm
  obtain ⟨change, hresult, hchange⟩ := reduceByOthers_spec h hp .nil
  cases hchange with
  | kept => exact hresult
  | dropped hnf => exact absurd (hsame hnf).symm hp0
  | replaced hlowers => exact absurd (hsame hlowers.2.2) hlowers.2.1

variable (hbasis : Proper n (basis ++ [k]))
include h hterms hbasis

private theorem result_settle_of_constant :
    (settle (Element.support order) (reduceByOthers order none)
      ((basis ++ [k]).map (element order))).result = .ok [element order k] := by
  induction basis with
  | nil =>
    have hkept := reduceByOthers_nil h (hbasis.nvars_eq k (by simp))
      (hbasis.denote_ne_zero k (by simp))
    exact result_settle_none (result_change?_kept hkept)
  | cons g basis ih =>
    have hrest : Proper n (basis ++ [k]) := hbasis.subset (List.subset_cons_self g (basis ++ [k]))
    have hdropped := reduceByOthers_of_constant h hterms (by simp) hrest
      (hbasis.nvars_eq g (by simp)) (hbasis.denote_ne_zero g (by simp))
    rw [List.cons_append, List.map_cons,
      result_settle_some (result_change?_dropped hdropped) (.inl (by simp))]
    exact ih hrest

theorem result_groebnerBasis_of_constant {generators : List (Polynomial R)}
    (hn : ∀ g ∈ generators, g.nvars = n) (htol : config.tolerance = none)
    (hmonic : config.monic = false) (hcheck : config.check = false)
    (hcompleted : (buchberger (generators.filter fun g => !g.isZero) order config).result =
      .ok (basis ++ [k])) :
    (groebnerBasis generators order config).result = .ok [k] := by
  have hsettled : (autoreduce (basis ++ [k]) order none).result = .ok [k] := by
    rw [autoreduce, Traced.result_bind (result_settle_of_constant h hterms hbasis)]
    rfl
  have hsorted : sortedByLeading order [k] = .ok [k] := by
    obtain ⟨sorted, hsorted, hperm, -⟩ := sortedByLeading_ok h
      (hbasis.subset (List.subset_append_right basis [k]))
    rw [hsorted, List.perm_singleton.mp hperm]
  have hne : (generators.filter fun g => !g.isZero) ≠ [] := by
    intro hnil
    rw [hnil, result_buchberger_of_length_le_one h htol .nil (Nat.zero_le 1)] at hcompleted
    exact absurd (Except.ok.inj hcompleted) (by simp)
  have hnormal : (if config.monic then normalized order [k] else .ok [k]) = .ok [k] :=
    if_neg (by rw [hmonic]; exact Bool.false_ne_true)
  exact result_groebnerBasis_of_steps htol (nonzeroGenerators_ok hn) hne hcompleted hsettled hnormal
    hsorted fun hcheck' => absurd (hcheck.symm.trans hcheck') Bool.false_ne_true

end PolyIdeal
