import PolyIdeal.Proofs.Basis.Constant
import PolyIdeal.Proofs.Basis.ProductCriterion

/-!
# Comparing ideals

Over a field without a tolerance generators are compared by their bases. Bases that are the same
belong to the same ideal. The converse needs leading coefficients one: bases of an ideal that are not
made monic still differ by constants.
-/

namespace PolyIdeal

open MonomialOrder PolyIdeal.Polynomial Buchberger

variable {R : Type} [CommRing R] [DecidableEq R] {n : ℕ} {order : Order}

/-- Lists with the same leading coefficients one by one. -/
def SameLeadingCoefficients (order : Order) (basis basis' : List (Polynomial R)) : Prop :=
  basis.map (leadingCoefficient order) = basis'.map (leadingCoefficient order)

section Lists

variable {basis basis' : List (Polynomial R)}

private theorem Proper.map_leadingCoefficient (h : order.accepts n = true)
    (hbasis : Proper n basis) :
    basis.map (leadingCoefficient order) =
      (basis.map (denote n)).map fun G => .ok ((order.monomialOrder n h).leadingCoeff G) := by
  rw [List.map_map]
  apply List.map_congr_left
  intro g hg
  exact leadingCoefficient_ok h (hbasis.nvars_eq g hg) (hbasis.denote_ne_zero g hg)

private theorem sameLeadingCoefficients_of_map_denote (h : order.accepts n = true)
    (hbasis : Proper n basis) (hbasis' : Proper n basis')
    (heq : basis.map (denote n) = basis'.map (denote n)) :
    SameLeadingCoefficients order basis basis' := by
  rw [SameLeadingCoefficients, hbasis.map_leadingCoefficient h, hbasis'.map_leadingCoefficient h,
    heq]

private theorem SameUpToUnits.map_denote (h : order.accepts n = true)
    (hunits : SameUpToUnits basis basis') (hbasis : Proper n basis) (hbasis' : Proper n basis')
    (hregular : ∀ G ∈ denotations n basis, IsUnit ((order.monomialOrder n h).leadingCoeff G))
    (hlead : SameLeadingCoefficients order basis basis') :
    basis.map (denote n) = basis'.map (denote n) := by
  induction hunits with
  | nil => rfl
  | @cons p q basis basis' hpq _ ih =>
    have hsub : basis ⊆ p :: basis := List.subset_cons_self p basis
    have hsub' : basis' ⊆ q :: basis' := List.subset_cons_self q basis'
    have hp : p.nvars = n := hbasis.nvars_eq p (by simp)
    have hq : q.nvars = n := hbasis'.nvars_eq q (by simp)
    have hp0 : p.denote n ≠ 0 := hbasis.denote_ne_zero p (by simp)
    have hq0 : q.denote n ≠ 0 := hbasis'.denote_ne_zero q (by simp)
    simp only [SameLeadingCoefficients, List.map_cons, List.cons.injEq] at hlead
    obtain ⟨hhead, htail⟩ := hlead
    obtain ⟨c, hc, hagrees⟩ := hpq
    obtain ⟨hscale, hdenote⟩ := scale_spec hp c
    have hqd : q.denote n = MvPolynomial.C c * p.denote n := by
      rw [(agrees_iff hq hscale).mp hagrees, hdenote]
    -- The constant multiplies the leading coefficient, which is invertible.
    have hone : c = 1 := by
      rw [leadingCoefficient_ok h hp hp0, leadingCoefficient_ok h hq hq0, hqd,
        leadingCoeff_C_mul hc, Except.ok.injEq] at hhead
      have hunit := hregular _ (denote_mem_denotations (n := n) List.mem_cons_self)
      exact hunit.mul_right_cancel (by rw [one_mul, ← hhead])
    have hrest := ih (hbasis.subset hsub) (hbasis'.subset hsub')
      (fun G hG => hregular G (denotations_mono hsub hG)) htail
    rw [List.map_cons, List.map_cons, hrest, hqd, hone, map_one, one_mul]

end Lists

variable [Coefficient R] [FieldCoefficient R] {config : Config}
  {generators generators' : List (Polynomial R)}

private theorem IsOutcome.sameLeadingCoefficients {h : order.accepts n = true}
    {I : Ideal (MvPolynomial (Fin n) R)} {strong strong' : Prop} {basis basis' : List (Polynomial R)}
    (hbasis : IsOutcome h config strong I basis) (hbasis' : IsOutcome h config strong' I basis')
    (hmonic : config.monic = true) : SameLeadingCoefficients order basis basis' := by
  have hfield := FieldCoefficient.isField_domain (R := R)
  have hreduced := hbasis.isReducedGroebner (hbasis.monic hmonic hfield) hbasis.sorted
  have hreduced' := hbasis'.isReducedGroebner (hbasis'.monic hmonic hfield) hbasis'.sorted
  exact sameLeadingCoefficients_of_map_denote h hbasis.proper hbasis'.proper
    (hreduced.unique hreduced')

/-- Generators are found to be the same exactly if their ideals are and the leading coefficients of
their bases are, which they always are if the bases are made monic. -/
theorem sameIdeal_spec (h : order.accepts n = true) (hn : ∀ g ∈ generators, g.nvars = n)
    (hn' : ∀ g ∈ generators', g.nvars = n) (htol : config.tolerance = none) :
    ∃ basis basis' same, (groebnerBasis generators order config).result = .ok basis ∧
      (groebnerBasis generators' order config).result = .ok basis' ∧
      (sameIdeal generators generators' order config).result = .ok same ∧
      (same = true ↔
        Ideal.span (denotations n generators) = Ideal.span (denotations n generators') ∧
          SameLeadingCoefficients order basis basis') ∧
      (config.monic = true → (same = true ↔
        Ideal.span (denotations n generators) = Ideal.span (denotations n generators'))) := by
  obtain ⟨basis, hresult, hbasis⟩ := groebnerBasis_ok h hn htol
  obtain ⟨basis', hresult', hbasis'⟩ := groebnerBasis_ok h hn' htol
  have hsame : (sameIdeal generators generators' order config).result =
      .ok (sameBasis basis basis') := by
    rw [sameIdeal, Traced.result_bind hresult, Traced.result_bind hresult']
    rfl
  have hiff : sameBasis basis basis' = true ↔
      Ideal.span (denotations n generators) = Ideal.span (denotations n generators') ∧
        SameLeadingCoefficients order basis basis' := by
    rw [sameBasis_iff hbasis.proper.nvars_eq hbasis'.proper.nvars_eq]
    constructor
    · intro heq
      refine ⟨?_, sameLeadingCoefficients_of_map_denote h hbasis.proper hbasis'.proper heq⟩
      rw [← hbasis.span_eq, ← hbasis'.span_eq, ← setOf_mem_map_denote, heq, setOf_mem_map_denote]
    · intro ⟨hspan, hlead⟩
      rw [← hspan] at hbasis'
      have hunit := hbasis.proper.isUnit_leadingCoeff (order.monomialOrder n h)
      have hunit' := hbasis'.proper.isUnit_leadingCoeff (order.monomialOrder n h)
      exact (hbasis.sameUpToUnits hbasis' hunit hunit').map_denote h hbasis.proper hbasis'.proper
        hunit hlead
  refine ⟨basis, basis', _, hresult, hresult', hsame, hiff, fun hmonic => ?_⟩
  rw [hiff, and_iff_left_iff_imp]
  intro hspan
  rw [← hspan] at hbasis'
  exact hbasis.sameLeadingCoefficients hbasis' hmonic

theorem sameIdeal_spec_hyperbolaAndLine :
    ∃ basis basis' same, (groebnerBasis hyperbolaAndLine .revlex {}).result = .ok basis ∧
      (groebnerBasis hyperbolaAndLine.tail .revlex {}).result = .ok basis' ∧
      (sameIdeal hyperbolaAndLine hyperbolaAndLine.tail .revlex {}).result = .ok same ∧
      (same = true ↔ Ideal.span (denotations 2 hyperbolaAndLine) =
          Ideal.span (denotations 2 hyperbolaAndLine.tail) ∧
        SameLeadingCoefficients .revlex basis basis') ∧
      (({} : Config).monic = true → (same = true ↔ Ideal.span (denotations 2 hyperbolaAndLine) =
        Ideal.span (denotations 2 hyperbolaAndLine.tail))) :=
  sameIdeal_spec rfl nvars_hyperbolaAndLine
    (fun g hg => nvars_hyperbolaAndLine g (List.mem_of_mem_tail hg)) rfl

section Constants

private theorem groebnerBasis_constant {k : Polynomial ℚ} {c : ℚ} (hk : k.nvars = 1)
    (hterms : k.terms = [([0], c)]) :
    (groebnerBasis [k] .lex { monic := false }).result = .ok [k] := by
  have h : Order.lex.accepts 1 = true := rfl
  have hzero : k.isZero = false := by
    rw [← Bool.not_eq_true, isZero_iff_terms, hterms]
    exact List.cons_ne_nil _ _
  have hproper : Proper 1 [k] := .singleton hk ((isZero_eq_false_iff hk).mp hzero)
  have hnonzero : [k].filter (fun g => !g.isZero) = [k] := by simp [hzero]
  have hcompleted : (buchberger ([k].filter fun g => !g.isZero) .lex
      { monic := false }).result = .ok ([] ++ [k]) := by
    rw [hnonzero]
    exact result_buchberger_of_length_le_one h rfl hproper (by simp)
  exact result_groebnerBasis_of_constant h hterms hproper hproper.nvars_eq rfl rfl rfl hcompleted

/-- The constants two and one generate the same ideal, but their bases are not made monic. -/
theorem sameIdeal_misses_constants :
    Ideal.span (denotations 1 [.univariate (.ofCoefficients [2] : Univariate ℚ)]) =
        Ideal.span (denotations 1 [.univariate (.ofCoefficients [1] : Univariate ℚ)]) ∧
      (sameIdeal [.univariate (.ofCoefficients [2] : Univariate ℚ)]
        [.univariate (.ofCoefficients [1])] .lex { monic := false }).result = .ok false := by
  have htwo : (univariate (.ofCoefficients [2] : Univariate ℚ)).terms = [([0], 2)] := by
    decide +kernel
  have hone : (univariate (.ofCoefficients [1] : Univariate ℚ)).terms = [([0], 1)] := by
    decide +kernel
  constructor
  · rw [denotations_cons, denotations_cons, denotations_nil,
      denote_of_terms_constant (n := 1) htwo, denote_of_terms_constant (n := 1) hone,
      ← mul_one (2 : ℚ), map_mul]
    exact span_insert_C_mul (FieldCoefficient.isUnit_of_ne_zero two_ne_zero) _
  · rw [sameIdeal, Traced.result_bind (groebnerBasis_constant rfl htwo),
      Traced.result_bind (groebnerBasis_constant rfl hone)]
    have hdiffers : sameBasis [.univariate (.ofCoefficients [2] : Univariate ℚ)]
        [.univariate (.ofCoefficients [1])] = false := by decide +kernel
    exact congrArg Except.ok hdiffers

end Constants

end PolyIdeal
