import PolyIdeal.Proofs.Basis.Normalization

/-!
# The computation of a basis

Without a tolerance the generators that are not zero are completed, autoreduced, normalized over a
field and sorted. What comes out is an interreduced Groebner basis of their ideal, unless a
coefficient without an inverse is in the way.
-/

namespace PolyIdeal

open Monomial MonomialOrder PolyIdeal.Polynomial Reducer Buchberger

variable {R : Type} [CommRing R] [DecidableEq R] {n : ℕ} {order : Order}
  (h : order.accepts n = true) {generators basis : List (Polynomial R)}

theorem span_cons_of_mem {f : Polynomial R}
    (hmem : f.denote n ∈ Ideal.span (denotations n generators)) :
    Ideal.span (denotations n (f :: generators)) = Ideal.span (denotations n generators) := by
  rw [denotations_cons]
  exact Submodule.span_insert_eq_span hmem

section Nonzero

variable (hn : ∀ g ∈ generators, g.nvars = n)
include hn

theorem proper_filter_nonzero : Proper n (generators.filter fun g => !g.isZero) := by
  apply Proper.of_isZero
  · intro g hg
    exact hn g (List.mem_of_mem_filter hg)
  · intro g hg
    simpa using (List.mem_filter.mp hg).2

theorem span_filter_nonzero :
    Ideal.span (denotations n (generators.filter fun g => !g.isZero)) =
      Ideal.span (denotations n generators) := by
  apply le_antisymm
  · exact Ideal.span_mono (denotations_mono List.filter_sublist.subset)
  · apply Ideal.span_le.mpr
    rintro F ⟨g, hg, rfl⟩
    cases hzero : g.isZero with
    | true =>
      rw [(isZero_iff (hn g hg)).mp hzero]
      exact Ideal.zero_mem _
    | false =>
      apply Ideal.subset_span
      exact denote_mem_denotations (List.mem_filter.mpr ⟨hg, by simp [hzero]⟩)

theorem nonzeroGenerators_ok [Coefficient R] :
    nonzeroGenerators generators none = .ok (generators.filter fun g => !g.isZero) := by
  have hchop : generators.mapM (Polynomial.chop none) = .ok generators := by
    rw [mapM_ok (g := id) fun g _ => chop_none g, List.map_id]
  have hnvars : ∀ k ∈ (generators.filter fun g => !g.isZero).map Polynomial.nvars, k = n := by
    intro k hk
    obtain ⟨g, hg, rfl⟩ := List.mem_map.mp hk
    exact (proper_filter_nonzero hn).nvars_eq g hg
  have harities : (distinctArities ((generators.filter fun g => !g.isZero).map
      Polynomial.nvars)).length ≤ 1 := by
    rcases distinctArities_eq hnvars with heq | heq <;> rw [heq] <;> simp
  rw [nonzeroGenerators, hchop]
  simp only [bind, Except.bind, Nat.not_lt.mpr harities, if_false]
  rfl

end Nonzero

section Verify

variable [Coefficient R] [FieldCoefficient R] {fs : List (Polynomial R)}

theorem verify_ok (hbasis : Proper n basis)
    (hgroebner : IsGroebner (order.monomialOrder n h) (denotations n basis))
    (hn : ∀ f ∈ fs, f.nvars = n)
    (hspan : Ideal.span (denotations n basis) = Ideal.span (denotations n fs)) :
    (verify fs basis order none).result = .ok () := by
  obtain ⟨r, hok, hr⟩ := ofBasis_ok h hbasis
  have hmembers := annihilatesIdeal_of_isGroebner h hr hgroebner
  have hvanish : (allVanish r fs).result = .ok true := by
    apply allVanish_ok
    intro f hf
    apply hmembers f (hn f hf)
    rw [hspan]
    exact Ideal.subset_span (denote_mem_denotations hf)
  obtain ⟨b, hb, -, hcomplete⟩ := isGroebnerBasis_spec h hr hok
  rw [hcomplete hmembers] at hb
  rw [verify, Traced.result_lift_bind hok, Traced.result_bind hvanish]
  simp only [Bool.not_true, Bool.false_eq_true, if_false]
  rw [Traced.result_bind hb]
  rfl

end Verify

private theorem Proper.ne_nil {g : Polynomial R} (hproper : Proper n (g :: generators))
    (hspan : Ideal.span (denotations n basis) =
      Ideal.span (denotations n (g :: generators))) : basis ≠ [] := by
  rintro rfl
  have hmem : g.denote n ∈ Ideal.span (denotations n (g :: generators)) :=
    Ideal.subset_span (denote_mem_denotations List.mem_cons_self)
  rw [← hspan, denotations_nil, Ideal.span_empty] at hmem
  exact hproper.denote_ne_zero g List.mem_cons_self hmem

section Steps

variable [Coefficient R] {config : Config}

/-- A computation is made of its steps. -/
theorem result_groebnerBasis_of_steps {nonzero completed settled normal sorted : List (Polynomial R)}
    (htol : config.tolerance = none)
    (hnonzero : nonzeroGenerators generators none = .ok nonzero) (hne : nonzero ≠ [])
    (hcompleted : (buchberger nonzero order config).result = .ok completed)
    (hsettled : (autoreduce completed order none).result = .ok settled)
    (hnormal : (if config.monic then normalized order settled else .ok settled) = .ok normal)
    (hsorted : sortedByLeading order normal = .ok sorted)
    (hverify : config.check = true → (verify nonzero sorted order none).result = .ok ()) :
    (groebnerBasis generators order config).result = .ok sorted := by
  have htail : (do
      let basis ← Traced.lift (sortedByLeading order normal)
      if config.check then
        verify nonzero basis order none
      return basis : Traced (Event R) (List (Polynomial R))).result = .ok sorted := by
    rw [Traced.result_lift_bind hsorted]
    cases hcheck : config.check with
    | false => rfl
    | true =>
      simp only [if_true]
      rw [Traced.result_bind (hverify hcheck)]
      rfl
  rw [groebnerBasis, htol, Traced.result_lift_bind hnonzero,
    if_neg (by rwa [List.isEmpty_iff]), Traced.result_bind hcompleted,
    Traced.result_note_bind hsettled]
  by_cases hmonic : config.monic = true
  · rw [if_pos hmonic] at hnormal ⊢
    rw [Traced.result_lift_bind hnormal]
    exact htail
  · rw [if_neg hmonic] at hnormal ⊢
    obtain rfl := Except.ok.inj hnormal
    exact htail

/-- Generators that every step keeps are the basis. -/
theorem result_groebnerBasis_of_kept (hproper : Proper n generators) (hne : generators ≠ [])
    (htol : config.tolerance = none) (hcheck : config.check = false)
    (hcompleted : (buchberger generators order config).result = .ok generators)
    (hsettled : (autoreduce generators order none).result = .ok generators)
    (hnormal : (if config.monic then normalized order generators else .ok generators) =
      .ok generators)
    (hsorted : sortedByLeading order generators = .ok generators) :
    (groebnerBasis generators order config).result = .ok generators := by
  have hfilter : (generators.filter fun g => !g.isZero) = generators := by
    refine List.filter_eq_self.mpr fun g hg => ?_
    rw [(isZero_eq_false_iff (hproper.nvars_eq g hg)).mpr (hproper.denote_ne_zero g hg)]
    rfl
  have hnonzero := nonzeroGenerators_ok hproper.nvars_eq
  rw [hfilter] at hnonzero
  exact result_groebnerBasis_of_steps htol hnonzero hne hcompleted hsettled hnormal hsorted
    fun hcheck' => absurd (hcheck.symm.trans hcheck') Bool.false_ne_true

end Steps

section Outcome

variable [Coefficient R] {config : Config} {strong : Prop} {I : Ideal (MvPolynomial (Fin n) R)}

/-- What a computation without a tolerance finds, up to the order of the elements. The basis is a
strong one if that holds of the completed generators. -/
structure IsNormalized (config : Config) (strong : Prop) (I : Ideal (MvPolynomial (Fin n) R))
    (basis : List (Polynomial R)) : Prop extends IsInterreduced h I basis where
  isStrongGroebner : strong → IsStrongGroebner (order.monomialOrder n h) (denotations n basis)
  monic : config.monic = true → (Coefficient.domain R).isField = true →
    ∀ G ∈ denotations n basis, (order.monomialOrder n h).leadingCoeff G = 1

/-- What a computation without a tolerance finds. -/
structure IsOutcome (config : Config) (strong : Prop) (I : Ideal (MvPolynomial (Fin n) R))
    (basis : List (Polynomial R)) : Prop extends IsNormalized h config strong I basis where
  sorted : basis.Pairwise fun p q => (order.monomialOrder n h).degree (q.denote n)
    ≼[order.monomialOrder n h] (order.monomialOrder n h).degree (p.denote n)

private theorem IsNormalized.perm {sorted : List (Polynomial R)}
    (hI : IsNormalized h config strong I basis) (hperm : basis.Perm sorted) :
    IsNormalized h config strong I sorted where
  toIsInterreduced := hI.toIsInterreduced.perm hperm
  isStrongGroebner := denotations_perm hperm ▸ hI.isStrongGroebner
  monic := denotations_perm hperm ▸ hI.monic

private theorem isOutcome_nil : IsOutcome h config strong ⊥ ([] : List (Polynomial R)) where
  proper := .nil
  span_eq := by rw [denotations_nil, Ideal.span_empty]
  isGroebner := by
    rw [denotations_nil]
    exact isStrongGroebner_empty.isGroebner
  coreduced := .nil
  isStrongGroebner _ := by
    rw [denotations_nil]
    exact isStrongGroebner_empty
  monic _ _ G hG := by
    rw [denotations_nil] at hG
    exact absurd hG (Set.notMem_empty G)
  sorted := .nil

variable [DomainCoefficient R]

private theorem normalized_spec (hI : IsInterreduced h I basis)
    (hstrong : strong → IsStrongGroebner (order.monomialOrder n h) (denotations n basis))
    (hne : basis ≠ []) :
    ∃ basis', (if config.monic then normalized order basis else .ok basis) = .ok basis' ∧
      IsNormalized h config strong I basis' := by
  by_cases hmonic : config.monic = true
  · rw [if_pos hmonic]
    by_cases hfield : (Coefficient.domain R).isField = true
    · have := DomainCoefficient.fieldCoefficient hfield
      have hunit := hI.proper.isUnit_leadingCoeff (order.monomialOrder n h)
      have hI' := hI.map_monicOf hunit
      exact ⟨_, normalized_ok h hI.proper hne, hI',
        fun _ => hI'.isGroebner.isStrongGroebner (hI'.proper.isUnit_leadingCoeff _),
        fun _ _ G hG => hI.leadingCoeff_monicOf hunit hG⟩
    · refine ⟨basis, ?_, hI, hstrong, fun _ hfield' => absurd hfield' hfield⟩
      rw [normalized, if_neg hfield]
      exact hne
  · rw [if_neg hmonic]
    exact ⟨basis, rfl, hI, hstrong, fun hmonic' => absurd hmonic' hmonic⟩

include h in
/-- The generators are completed and the computation finds an interreduced basis of their ideal,
unless their completion is refused. -/
theorem groebnerBasis_run (hn : ∀ g ∈ generators, g.nvars = n) (htol : config.tolerance = none)
    (hverify : config.check = true → ∀ fs basis : List (Polynomial R), Proper n fs →
      IsInterreduced h (Ideal.span (denotations n fs)) basis →
      (verify fs basis order none).result = .ok ()) :
    (∃ e, (groebnerBasis generators order config).result = .error e ∧ Refused R e ∧
        (buchberger (generators.filter fun g => !g.isZero) order config).result = .error e) ∨
      ∃ completed basis,
        (buchberger (generators.filter fun g => !g.isZero) order config).result = .ok completed ∧
        IsCompletion h config (generators.filter fun g => !g.isZero) completed [] ∧
        (groebnerBasis generators order config).result = .ok basis ∧
        IsOutcome h config
          (IsStrongGroebner (order.monomialOrder n h) (denotations n completed))
          (Ideal.span (denotations n generators)) basis := by
  have hproper := proper_filter_nonzero hn
  have hnonzero := nonzeroGenerators_ok hn
  rw [← span_filter_nonzero hn]
  generalize generators.filter (fun g => !g.isZero) = nonzero at hproper hnonzero
  rcases buchberger_spec h htol hproper with ⟨e, herror, hrefused⟩ | ⟨completed, hcompleted, hc⟩
  · left
    cases nonzero with
    | nil =>
      have hok := result_buchberger_of_length_le_one h htol hproper (Nat.zero_le 1)
      exact absurd (herror.symm.trans hok) nofun
    | cons g nonzero =>
      refine ⟨e, ?_, hrefused, herror⟩
      rw [groebnerBasis, htol, Traced.result_lift_bind hnonzero]
      exact Traced.result_bind_error herror _
  · right
    cases nonzero with
    | nil =>
      rw [denotations_nil, Ideal.span_empty]
      refine ⟨completed, [], hcompleted, hc, ?_, isOutcome_nil h⟩
      rw [groebnerBasis, htol, Traced.result_lift_bind hnonzero]
      rfl
    | cons g nonzero =>
      -- What autoreduction has to keep: a strong basis is kept as such.
      obtain ⟨settled, -, hsettled, hsettledproper, hspan, ⟨hgroebner, hstrong⟩, hauto⟩ :=
        autoreduce_spec h (keptByReduction_isGroebner.and (keptByReduction_isStrongGroebner.imp
          (IsStrongGroebner (order.monomialOrder n h) (denotations n completed)))) hc.proper
          ⟨hc.isGroebner, id⟩
      have hI : IsInterreduced h (Ideal.span (denotations n (g :: nonzero))) settled :=
        ⟨hsettledproper, hspan.trans hc.span_eq, hgroebner, hauto.coreduced⟩
      obtain ⟨basis, hnormalized, hN⟩ := normalized_spec h hI hstrong (hproper.ne_nil hI.span_eq)
      obtain ⟨sorted, hsorted, hperm, hdescending⟩ := sortedByLeading_ok h hN.proper
      have houtcome : IsOutcome h config _ (Ideal.span (denotations n (g :: nonzero))) sorted :=
        ⟨hN.perm h hperm.symm, hdescending⟩
      have hresult := result_groebnerBasis_of_steps htol hnonzero (List.cons_ne_nil _ _)
        hcompleted hsettled hnormalized hsorted fun hcheck =>
          hverify hcheck _ _ hproper houtcome.toIsInterreduced
      exact ⟨completed, sorted, hcompleted, hc, hresult, houtcome⟩

omit [DomainCoefficient R] in
include h in
/-- Over a field nothing is in the way, and the basis can be verified. -/
theorem groebnerBasis_ok [FieldCoefficient R] (hn : ∀ g ∈ generators, g.nvars = n)
    (htol : config.tolerance = none) :
    ∃ basis, (groebnerBasis generators order config).result = .ok basis ∧
      IsOutcome h config True (Ideal.span (denotations n generators)) basis := by
  have hrun := groebnerBasis_run h hn htol fun _ fs basis hfs hI =>
    verify_ok h hI.proper hI.isGroebner hfs.nvars_eq hI.span_eq
  rcases hrun with ⟨e, -, hrefused, -⟩ | ⟨completed, basis, -, hc, hresult, hbasis⟩
  · exact absurd hrefused (not_refused e)
  · have hunit := hbasis.proper.isUnit_leadingCoeff (order.monomialOrder n h)
    have hstrong := hbasis.isGroebner.isStrongGroebner hunit
    exact ⟨basis, hresult, { hbasis with isStrongGroebner := fun _ => hstrong }⟩

end Outcome

end PolyIdeal
