import PolyIdeal.Proofs.Basis.Canonical
import PolyIdeal.Proofs.Reduction.Renaming

/-!
# Bases in renamed variables

Reduced Groebner bases and normal forms depend on the monomial order alone. So computing them by an
order that rearranges the variables first is computing them lexicographically in the rearranged
variables.
-/

namespace PolyIdeal

open MonomialOrder PolyIdeal.Polynomial

variable {R : Type} [CommRing R] [DecidableEq R] {n : ℕ}

section Renamed

variable {order order' : Order} {h : order.accepts n = true} {h' : order'.accepts n = true}
  {ρ : Fin n ≃ Fin n} {generators : List (Polynomial R)} {F : Polynomial R → Polynomial R}

private theorem map_denote_renamed {basis : List (Polynomial R)}
    (hF : ∀ g ∈ basis, Renamed ρ g (F g)) :
    (basis.map F).map (denote n) = (basis.map (denote n)).map (MvPolynomial.rename ρ) := by
  rw [List.map_map, List.map_map]
  exact List.map_congr_left fun g hg => (hF g hg).denote_eq

private theorem span_renamed (hF : ∀ g ∈ generators, Renamed ρ g (F g)) :
    Ideal.span (denotations n (generators.map F)) =
      (Ideal.span (denotations n generators)).map
        (MvPolynomial.rename ρ : MvPolynomial (Fin n) R →ₐ[R] MvPolynomial (Fin n) R) := by
  rw [Ideal.map_span]
  congr 1
  ext G
  rw [← setOf_mem_map_denote, ← setOf_mem_map_denote, map_denote_renamed hF]
  simp only [Set.mem_ofPred_eq, List.mem_map, Set.mem_image]

theorem groebnerBasis_renamed [Coefficient R] [FieldCoefficient R]
    (hρ : Carries ρ (order.monomialOrder n h) (order'.monomialOrder n h'))
    (hF : ∀ g ∈ generators, Renamed ρ g (F g)) {config : Config} (htol : config.tolerance = none)
    (hmonic : config.monic = true) :
    ∃ basis basis', (groebnerBasis generators order config).result = .ok basis ∧
      (groebnerBasis (generators.map F) order' config).result = .ok basis' ∧
      Proper n basis ∧ Proper n basis' ∧
      basis'.map (denote n) = (basis.map (denote n)).map (MvPolynomial.rename ρ) := by
  have hn : ∀ g ∈ generators, g.nvars = n := fun g hg => (hF g hg).nvars_eq
  have hn' : ∀ g ∈ generators.map F, g.nvars = n :=
    List.forall_mem_map.mpr fun g hg => (hF g hg).nvars_eq'
  obtain ⟨basis, hresult, hbasis, hreduced⟩ := groebnerBasis_spec h hn htol hmonic
  obtain ⟨basis', hresult', hbasis', hreduced'⟩ := groebnerBasis_spec h' hn' htol hmonic
  rw [span_renamed hF] at hreduced'
  exact ⟨basis, basis', hresult, hresult', hbasis, hbasis',
    hreduced'.unique (hρ.isReducedGroebner_rename hreduced)⟩

end Renamed

variable [Coefficient R] [SoundDivision R] {p : Permutation} {order : Order}
  {generators basis : List (Polynomial R)} {f : Polynomial R} {config : Config}

/-- An order that is lexicographic after a rearrangement of the variables gives the bases and the
normal forms that the lexicographic order gives in the rearranged variables. -/
theorem rename_commutes (hp : p.images.length = n) (horder : order.IsLexAfter p)
    (hn : ∀ g ∈ generators, g.nvars = n) (htol : config.tolerance = none)
    (hmonic : config.monic = true) (hbasis : ∀ g ∈ basis, g.nvars = n)
    (hzero : ∀ g ∈ basis, g.isZero = false) (hf : f.nvars = n) :
    (FieldCoefficient R → ∃ G G', (groebnerBasis generators order config).result = .ok G ∧
      (groebnerBasis (generators.map (rename p)) .lex config).result = .ok G' ∧
      sameBasis (G.map (rename p)) G' = true) ∧
    ∃ r r', (reduce f basis order none).result = .ok r ∧
      (reduce (f.rename p) (basis.map (rename p)) .lex none).result = .ok r' ∧
      (r.rename p).agrees r' = true := by
  have hcarries := horder.carries hp
  constructor
  · intro hfield
    obtain ⟨G, G', hresult, hresult', hG, hG', hdenote⟩ := groebnerBasis_renamed hcarries
      (fun g hg => renamed_rename hp (hn g hg)) htol hmonic
    have hF : ∀ g ∈ G, Renamed (p.place hp) g (g.rename p) :=
      fun g hg => renamed_rename hp (hG.nvars_eq g hg)
    refine ⟨G, G', hresult, hresult', ?_⟩
    rw [sameBasis_iff (hG.renamed hF).nvars_eq hG'.nvars_eq, map_denote_renamed hF, hdenote]
  · obtain ⟨r, r', hresult, hresult', hr⟩ := reduce_renamed hcarries
      (Proper.of_isZero hbasis hzero) (fun g hg => renamed_rename hp (hbasis g hg))
      (renamed_rename hp hf)
    have hrename := renamed_rename hp hr.nvars_eq
    refine ⟨r, r', hresult, hresult', ?_⟩
    rw [agrees_iff hrename.nvars_eq' hr.nvars_eq', hrename.denote_eq, hr.denote_eq]

theorem rename_commutes_hyperbolaAndLine :
    let p : Permutation := ⟨[1, 0], by decide⟩
    let f : Polynomial (Residue 3) :=
      .multinomial (.ofTerms 2 (by decide) [([1, 2], 1), ([0, 1], -1)])
    (∃ G G', (groebnerBasis hyperbolaAndLine .revlex {}).result = .ok G ∧
      (groebnerBasis (hyperbolaAndLine.map (rename p)) .lex {}).result = .ok G' ∧
      sameBasis (G.map (rename p)) G' = true) ∧
    ∃ r r', (reduce f hyperbolaAndLine .revlex none).result = .ok r ∧
      (reduce (f.rename p) (hyperbolaAndLine.map (rename p)) .lex none).result = .ok r' ∧
      (r.rename p).agrees r' = true := by
  intro p f
  have hzero : ∀ g ∈ hyperbolaAndLine, g.isZero = false := by
    intro g hg
    rcases List.mem_pair.mp hg with rfl | rfl
    · rfl
    · rfl
  obtain ⟨hfield, hreduce⟩ := rename_commutes (p := p) (f := f) rfl (.revlex rfl)
    nvars_hyperbolaAndLine (show ({} : Config).tolerance = none from rfl) rfl
    nvars_hyperbolaAndLine hzero rfl
  exact ⟨hfield inferInstance, hreduce⟩

end PolyIdeal
