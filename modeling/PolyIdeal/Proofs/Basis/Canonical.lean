import Mathlib.Logic.Relation
import PolyIdeal.Proofs.Basis.Reduced

/-!
# Canonicity

The basis that is computed depends on nothing but the ideal of the generators. So revising the
generators within their ideal, or replacing them by the basis itself, does not change it.
-/

namespace PolyIdeal

open PolyIdeal.Polynomial

variable {R : Type} [CommRing R] [DecidableEq R] {n : ℕ} {order : Order}

theorem sameBasis_iff {basis basis' : List (Polynomial R)} (hn : ∀ g ∈ basis, g.nvars = n)
    (hn' : ∀ g ∈ basis', g.nvars = n) :
    sameBasis basis basis' = true ↔ basis.map (denote n) = basis'.map (denote n) := by
  induction basis generalizing basis' with
  | nil => cases basis' <;> simp [sameBasis]
  | cons g basis ih =>
    cases basis' with
    | nil => simp [sameBasis]
    | cons g' basis' =>
      have htail := ih (fun p hp => hn p (List.mem_cons_of_mem g hp))
        fun p hp => hn' p (List.mem_cons_of_mem g' hp)
      have hhead := agrees_iff (hn g List.mem_cons_self) (hn' g' List.mem_cons_self)
      rw [List.map_cons, List.map_cons, List.cons.injEq, ← hhead, ← htail]
      simp only [sameBasis, List.length_cons, List.zip_cons_cons, List.all_cons, Bool.and_eq_true,
        beq_iff_eq, Nat.succ_inj]
      tauto

/-- A change of generators that keeps their ideal. -/
inductive Revision (n : ℕ) : List (Polynomial R) → List (Polynomial R) → Prop
  | permute {l l' : List (Polynomial R)} (hperm : l.Perm l') : Revision n l l'
  | duplicate {l : List (Polynomial R)} {g : Polynomial R} (hg : g ∈ l) : Revision n l (g :: l)
  | rescale {before after : List (Polynomial R)} {g : Polynomial R} {c : R} (hc : c ≠ 0) :
    Revision n (before ++ g :: after) (before ++ g.scale c :: after)
  | addMember {l : List (Polynomial R)} {f : Polynomial R} (hf : f.nvars = n)
    (hmem : f.denote n ∈ Ideal.span (denotations n l)) : Revision n l (f :: l)
  | addZero {l : List (Polynomial R)} {f : Polynomial R} (hf : f.nvars = n)
    (hzero : f.isZero = true) : Revision n l (f :: l)

section Revision

variable {generators generators' : List (Polynomial R)}

omit [DecidableEq R] in
theorem span_insert_C_mul {S : Set (MvPolynomial (Fin n) R)} {c : R} (hc : IsUnit c)
    (F : MvPolynomial (Fin n) R) :
    Ideal.span (insert (MvPolynomial.C c * F) S) = Ideal.span (insert F S) := by
  rw [Ideal.span_insert, Ideal.span_insert,
    Ideal.span_singleton_mul_left_unit (hc.map MvPolynomial.C)]

private theorem Revision.nvars_eq (hrev : Revision n generators generators')
    (hn : ∀ g ∈ generators, g.nvars = n) : ∀ g ∈ generators', g.nvars = n := by
  cases hrev with
  | permute hperm => exact fun g hg => hn g (hperm.symm.subset hg)
  | duplicate hg => exact List.forall_mem_cons.mpr ⟨hn _ hg, hn⟩
  | @rescale before after g c hc =>
    rw [List.forall_mem_append, List.forall_mem_cons] at hn ⊢
    exact ⟨hn.1, (scale_spec hn.2.1 c).1, hn.2.2⟩
  | addMember hf hmem => exact List.forall_mem_cons.mpr ⟨hf, hn⟩
  | addZero hf hzero => exact List.forall_mem_cons.mpr ⟨hf, hn⟩

private theorem Revision.span_eq [Coefficient R] [FieldCoefficient R]
    (hrev : Revision n generators generators')
    (hn : ∀ g ∈ generators, g.nvars = n) :
    Ideal.span (denotations n generators') = Ideal.span (denotations n generators) := by
  cases hrev with
  | permute hperm =>
    exact congrArg Ideal.span (Set.Subset.antisymm (denotations_mono hperm.symm.subset)
      (denotations_mono hperm.subset))
  | duplicate hg => exact span_cons_of_mem (Ideal.subset_span (denote_mem_denotations hg))
  | @rescale before after g c hc =>
    rw [denotations_middle, denotations_middle, (scale_spec (hn g (by simp)) c).2]
    exact span_insert_C_mul (FieldCoefficient.isUnit_of_ne_zero hc) _
  | addMember hf hmem => exact span_cons_of_mem hmem
  | addZero hf hzero =>
    apply span_cons_of_mem
    rw [(isZero_iff hf).mp hzero]
    exact Ideal.zero_mem _

private theorem span_eq_of_revisions [Coefficient R] [FieldCoefficient R]
    (hrevs : Relation.ReflTransGen (Revision n) generators generators')
    (hn : ∀ g ∈ generators, g.nvars = n) :
    (∀ g ∈ generators', g.nvars = n) ∧
      Ideal.span (denotations n generators') = Ideal.span (denotations n generators) := by
  induction hrevs with
  | refl => exact ⟨hn, rfl⟩
  | tail hsteps hstep ih => exact ⟨hstep.nvars_eq ih.1, (hstep.span_eq ih.1).trans ih.2⟩

end Revision

section Canonical

variable [Coefficient R] {generators basis : List (Polynomial R)}

/-- Every configuration without a tolerance that makes bases monic finds the basis. -/
def Finds (order : Order) (generators basis : List (Polynomial R)) : Prop :=
  ∀ config : Config, config.tolerance = none → config.monic = true → ∃ basis',
    (groebnerBasis generators order config).result = .ok basis' ∧ sameBasis basis basis' = true

variable [FieldCoefficient R]

private theorem finds_of_span_eq (h : order.accepts n = true) {I : Ideal (MvPolynomial (Fin n) R)}
    (hbasis : Proper n basis)
    (hreduced : IsReducedGroebner (order.monomialOrder n h) I (basis.map (denote n)))
    (hn : ∀ g ∈ generators, g.nvars = n) (hspan : Ideal.span (denotations n generators) = I) :
    Finds order generators basis := by
  intro config htol hmonic
  obtain ⟨basis', hresult, hbasis', hreduced'⟩ := groebnerBasis_spec h hn htol hmonic
  rw [hspan] at hreduced'
  refine ⟨basis', hresult, ?_⟩
  rw [sameBasis_iff hbasis.nvars_eq hbasis'.nvars_eq]
  exact hreduced.unique hreduced'

/-- Generators of the same ideal have the same basis, however they were revised, and the basis is a
fixed point. -/
theorem groebnerBasis_canonical {config : Config} (h : order.accepts n = true)
    (hn : ∀ g ∈ generators, g.nvars = n) (htol : config.tolerance = none)
    (hmonic : config.monic = true) :
    ∃ basis, (groebnerBasis generators order config).result = .ok basis ∧
      (∀ generators' : List (Polynomial R), (∀ g ∈ generators', g.nvars = n) →
        Ideal.span (denotations n generators') = Ideal.span (denotations n generators) →
        Finds order generators' basis) ∧
      (∀ generators', Relation.ReflTransGen (Revision n) generators generators' →
        Finds order generators' basis) ∧
      Finds order basis basis := by
  obtain ⟨basis, hresult, hbasis, hreduced⟩ := groebnerBasis_spec h hn htol hmonic
  refine ⟨basis, hresult, ?_, ?_, ?_⟩
  · intro generators' hn' hspan
    exact finds_of_span_eq h hbasis hreduced hn' hspan
  · intro generators' hrevs
    obtain ⟨hn', hspan⟩ := span_eq_of_revisions hrevs hn
    exact finds_of_span_eq h hbasis hreduced hn' hspan
  · exact finds_of_span_eq h hbasis hreduced hbasis.nvars_eq hreduced.span_denotations

theorem groebnerBasis_canonical_hyperbolaAndLine :
    ∃ basis, (groebnerBasis hyperbolaAndLine .revlex {}).result = .ok basis ∧
      (∀ generators' : List (Polynomial (Residue 3)), (∀ g ∈ generators', g.nvars = 2) →
        Ideal.span (denotations 2 generators') = Ideal.span (denotations 2 hyperbolaAndLine) →
        Finds .revlex generators' basis) ∧
      (∀ generators', Relation.ReflTransGen (Revision 2) hyperbolaAndLine generators' →
        Finds .revlex generators' basis) ∧
      Finds .revlex basis basis :=
  groebnerBasis_canonical rfl nvars_hyperbolaAndLine rfl rfl

end Canonical

end PolyIdeal
