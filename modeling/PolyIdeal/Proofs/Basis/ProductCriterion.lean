import PolyIdeal.Proofs.Basis.Canonical
import PolyIdeal.Proofs.Basis.Constant

/-!
# The product criterion

Over a field passing over pairs with coprime leading monomials changes a basis only by constants, and
not at all if it is made monic. Where inverses are missing a computation may be refused with the
criterion or without it. But if it is not, the basis is the same up to invertible constants, unless
the ideal is the whole ring.
-/

namespace PolyIdeal

open Monomial MonomialOrder PolyIdeal.Polynomial Reducer Buchberger Completion

variable {R : Type} [CommRing R] [DecidableEq R] {n : ℕ} {order : Order}

/-- The polynomials of two lists are the same one by one up to invertible constants. -/
def SameUpToUnits (basis basis' : List (Polynomial R)) : Prop :=
  List.Forall₂ (fun p q => ∃ c, IsUnit c ∧ q.agrees (p.scale c) = true) basis basis'

private theorem sameUpToUnits_refl {basis : List (Polynomial R)} (hn : ∀ g ∈ basis, g.nvars = n) :
    SameUpToUnits basis basis := by
  apply List.forall₂_same.mpr
  intro g hg
  obtain ⟨hscale, hdenote⟩ := scale_spec (hn g hg) (1 : R)
  refine ⟨1, isUnit_one, (agrees_iff (hn g hg) hscale).mpr ?_⟩
  rw [hdenote, map_one, one_mul]

section Unique

variable [Coefficient R] {h : order.accepts n = true} {I : Ideal (MvPolynomial (Fin n) R)}
  {config config' : Config} {strong strong' : Prop} {basis basis' : List (Polynomial R)}
  (hbasis : IsOutcome h config strong I basis) (hbasis' : IsOutcome h config' strong' I basis')

private theorem exists_scale_of_monicOf_eq [ExactCoefficient R] (h : order.accepts n = true)
    {p q : Polynomial R} (hp : p.nvars = n) (hq : q.nvars = n)
    (hpu : IsUnit ((order.monomialOrder n h).leadingCoeff (p.denote n)))
    (hqu : IsUnit ((order.monomialOrder n h).leadingCoeff (q.denote n)))
    (heq : (monicOf order p).denote n = (monicOf order q).denote n) :
    ∃ c, IsUnit c ∧ q.agrees (p.scale c) = true := by
  obtain ⟨-, -, a, ha, hpd, -⟩ := monicOf_spec h hp hpu
  obtain ⟨-, -, b, hb, hqd, -⟩ := monicOf_spec h hq hqu
  obtain ⟨b', hb'⟩ := hb.exists_left_inv
  have hunit : IsUnit (b' * a) := (IsUnit.of_mul_eq_one b hb').mul ha
  obtain ⟨hn, hd⟩ := scale_spec hp (b' * a)
  refine ⟨b' * a, hunit, (agrees_iff hq hn).mpr ?_⟩
  rw [hd, map_mul, mul_assoc, ← hpd, heq, hqd, ← mul_assoc, ← map_mul, hb', map_one, one_mul]

private theorem IsOutcome.isReducedGroebner_monicOf [ExactCoefficient R]
    (hbasis : IsOutcome h config strong I basis)
    (hunit : ∀ G ∈ denotations n basis, IsUnit ((order.monomialOrder n h).leadingCoeff G)) :
    IsReducedGroebner (order.monomialOrder n h) I
      ((basis.map (monicOf order)).map (denote n)) := by
  have hI := hbasis.toIsInterreduced
  refine (hI.map_monicOf hunit).isReducedGroebner (fun G => hI.leadingCoeff_monicOf hunit) ?_
  have hdegree {g : Polynomial R} (hg : g ∈ basis) :
      (order.monomialOrder n h).degree ((monicOf order g).denote n) =
        (order.monomialOrder n h).degree (g.denote n) := by
    obtain ⟨-, c, hc, hd, -⟩ := hI.monicOf_spec hunit hg
    rw [hd, degree_C_mul hc]
  rw [List.pairwise_map]
  apply hbasis.sorted.imp_of_mem
  intro p q hp hq hpq
  rwa [hdegree hp, hdegree hq]

include hbasis in
private theorem IsOutcome.isUnit_leadingCoeff (hstrong : strong) {H : Set (MvPolynomial (Fin n) R)}
    (hH : IsGroebner (order.monomialOrder n h) H)
    (hunit : ∀ G ∈ H, IsUnit ((order.monomialOrder n h).leadingCoeff G))
    (hspan : Ideal.span H = I) :
    ∀ G ∈ denotations n basis, IsUnit ((order.monomialOrder n h).leadingCoeff G) := by
  intro G hG
  exact (hbasis.isStrongGroebner hstrong).isUnit_leadingCoeff hbasis.pairwise_denotations hH hunit
    (hbasis.span_eq.trans hspan.symm) hG (hbasis.proper.ne_zero hG)

include hbasis hbasis' in
/-- Bases of an ideal with invertible leading coefficients are the same up to constants. -/
theorem IsOutcome.sameUpToUnits [ExactCoefficient R]
    (hunit : ∀ G ∈ denotations n basis, IsUnit ((order.monomialOrder n h).leadingCoeff G))
    (hunit' : ∀ G ∈ denotations n basis', IsUnit ((order.monomialOrder n h).leadingCoeff G)) :
    SameUpToUnits basis basis' := by
  have hmonic := (hbasis.isReducedGroebner_monicOf hunit).unique
    (hbasis'.isReducedGroebner_monicOf hunit')
  rw [List.map_map, List.map_map, ← List.forall₂_eq_eq_eq, List.forall₂_map_left_iff,
    List.forall₂_map_right_iff] at hmonic
  apply List.forall₂_iff_zip.mpr
  refine ⟨hmonic.length_eq, fun {p q} hpq => ?_⟩
  obtain ⟨hp, hq⟩ := List.of_mem_zip hpq
  exact exists_scale_of_monicOf_eq h (hbasis.proper.nvars_eq p hp) (hbasis'.proper.nvars_eq q hq)
    (hunit _ (denote_mem_denotations hp)) (hunit' _ (denote_mem_denotations hq))
    ((List.forall₂_iff_zip.mp hmonic).2 hpq)

end Unique

variable [Coefficient R] {generators : List (Polynomial R)} {config : Config}

/-- What a computation gives with the criterion or without it. -/
def outcomeWith (generators : List (Polynomial R)) (order : Order) (config : Config)
    (criterion : Bool) : Except Failure (List (Polynomial R)) :=
  (groebnerBasis generators order { config with productCriterion := criterion }).result

private theorem outcomeWith_congr (hn : ∀ g ∈ generators, g.nvars = n)
    (htol : config.tolerance = none) {criterion criterion' : Bool}
    (hbuchberger : (buchberger (generators.filter fun g => !g.isZero) order
        { config with productCriterion := criterion }).result =
      (buchberger (generators.filter fun g => !g.isZero) order
        { config with productCriterion := criterion' }).result) :
    outcomeWith generators order config criterion =
      outcomeWith generators order config criterion' := by
  have hgenerators := nonzeroGenerators_ok hn
  rw [← htol] at hgenerators
  simp only [outcomeWith, groebnerBasis]
  rw [Traced.result_lift_bind hgenerators, Traced.result_lift_bind hgenerators]
  split
  · rfl
  · exact Traced.result_bind_congr hbuchberger _

variable [DomainCoefficient R]

section Spec

variable (h : order.accepts n = true) (hn : ∀ g ∈ generators, g.nvars = n)
  (htol : config.tolerance = none) (hcheck : config.check = false)
include h hn htol hcheck

private theorem outcomeWith_spec (criterion : Bool) :
    (∃ cause, outcomeWith generators order config criterion = .error (.arithmetic cause)) ∨
      ∃ completed basis,
        IsCompletion h { config with productCriterion := criterion }
          (generators.filter fun g => !g.isZero) completed [] ∧
        outcomeWith generators order config criterion = .ok basis ∧
        IsOutcome h { config with productCriterion := criterion }
          (IsStrongGroebner (order.monomialOrder n h) (denotations n completed))
          (Ideal.span (denotations n generators)) basis := by
  have htol' : ({ config with productCriterion := criterion } : Config).tolerance = none := htol
  have hrun := groebnerBasis_run h hn htol' fun hcheck' => absurd (hcheck'.symm.trans hcheck) nofun
  rcases hrun with ⟨_, herror, ⟨⟨cause, rfl⟩, -⟩, -⟩ | ⟨completed, basis, -, hc, hresult, hbasis⟩
  · exact .inl ⟨cause, herror⟩
  · exact .inr ⟨completed, basis, hc, hresult, hbasis⟩

private theorem outcomeWith_ok {criterion : Bool} {completed : List (Polynomial R)}
    (hcompleted : (buchberger (generators.filter fun g => !g.isZero) order
      { config with productCriterion := criterion }).result = .ok completed) :
    ∃ basis, outcomeWith generators order config criterion = .ok basis := by
  have htol' : ({ config with productCriterion := criterion } : Config).tolerance = none := htol
  have hrun := groebnerBasis_run h hn htol' fun hcheck' => absurd (hcheck'.symm.trans hcheck) nofun
  rcases hrun with ⟨e, -, -, herror⟩ | ⟨-, basis, -, -, hresult, -⟩
  · exact absurd (herror.symm.trans hcompleted) nofun
  · exact ⟨basis, hresult⟩

private theorem outcomeWith_of_length_le_one
    (hlen : (generators.filter fun g => !g.isZero).length ≤ 1) :
    ∃ basis, ∀ criterion, outcomeWith generators order config criterion = .ok basis := by
  have hsame (criterion : Bool) : (buchberger (generators.filter fun g => !g.isZero) order
      { config with productCriterion := criterion }).result =
        .ok (generators.filter fun g => !g.isZero) := by
    have htol' : ({ config with productCriterion := criterion } : Config).tolerance = none := htol
    exact result_buchberger_of_length_le_one h htol' (proper_filter_nonzero hn) hlen
  obtain ⟨basis, hok⟩ := outcomeWith_ok h hn htol hcheck (hsame false)
  refine ⟨basis, fun criterion => ?_⟩
  rw [← hok]
  exact outcomeWith_congr hn htol ((hsame criterion).trans (hsame false).symm)

private theorem sameUpToUnits_of_outcomeWith {basis basis' : List (Polynomial R)}
    (hresult : outcomeWith generators order config false = .ok basis)
    (hresult' : outcomeWith generators order config true = .ok basis')
    (hproper : Ideal.span (denotations n generators) ≠ ⊤) : SameUpToUnits basis basis' := by
  obtain ⟨completed, _, hc, hok, hbasis⟩ :=
    (outcomeWith_spec h hn htol hcheck false).resolve_left fun ⟨_, herror⟩ =>
      absurd (hresult.symm.trans herror) nofun
  obtain rfl := Except.ok.inj (hresult.symm.trans hok)
  obtain ⟨completed', _, hc', hok', hbasis'⟩ :=
    (outcomeWith_spec h hn htol hcheck true).resolve_left fun ⟨_, herror⟩ =>
      absurd (hresult'.symm.trans herror) nofun
  obtain rfl := Except.ok.inj (hresult'.symm.trans hok')
  rcases Nat.lt_or_ge (generators.filter fun g => !g.isZero).length 2 with hlt | hlen
  · obtain ⟨basis, hsame⟩ :=
      outcomeWith_of_length_le_one h hn htol hcheck (Nat.le_of_lt_succ hlt)
    obtain rfl := Except.ok.inj (hresult.symm.trans (hsame false))
    obtain rfl := Except.ok.inj (hresult'.symm.trans (hsame true))
    exact sameUpToUnits_refl hbasis.proper.nvars_eq
  · rw [← span_filter_nonzero hn] at hproper hbasis hbasis'
    -- Without the criterion all pairs have been reduced, and there is at least one.
    have hunit := hc.isUnit_leadingCoeff h rfl hlen
    have hunit' := hc.isUnit_leadingCoeff_of_ne_top h rfl hlen hc' hproper
    exact hbasis.sameUpToUnits hbasis'
      (hbasis.isUnit_leadingCoeff (hc.isGroebner.isStrongGroebner hunit) hc.isGroebner hunit
        hc.span_eq)
      (hbasis'.isUnit_leadingCoeff (hc'.isGroebner.isStrongGroebner hunit') hc.isGroebner hunit
        hc.span_eq)

end Spec

omit [DomainCoefficient R] in
private theorem sameUpToUnits_of_field [FieldCoefficient R] (h : order.accepts n = true)
    (hn : ∀ g ∈ generators, g.nvars = n) (htol : config.tolerance = none) :
    ∃ basis basis', outcomeWith generators order config false = .ok basis ∧
      outcomeWith generators order config true = .ok basis' ∧ SameUpToUnits basis basis' ∧
      (config.monic = true → sameBasis basis basis' = true) := by
  have htol' (criterion : Bool) :
      ({ config with productCriterion := criterion } : Config).tolerance = none := htol
  obtain ⟨basis, hresult, hbasis⟩ := groebnerBasis_ok h hn (htol' false)
  obtain ⟨basis', hresult', hbasis'⟩ := groebnerBasis_ok h hn (htol' true)
  refine ⟨basis, basis', hresult, hresult', ?_, fun hmonic => ?_⟩
  · exact hbasis.sameUpToUnits hbasis' (hbasis.proper.isUnit_leadingCoeff _)
      (hbasis'.proper.isUnit_leadingCoeff _)
  · have hfield := FieldCoefficient.isField_domain (R := R)
    have hreduced := hbasis.isReducedGroebner (hbasis.monic hmonic hfield) hbasis.sorted
    have hreduced' := hbasis'.isReducedGroebner (hbasis'.monic hmonic hfield) hbasis'.sorted
    rw [sameBasis_iff hbasis.proper.nvars_eq hbasis'.proper.nvars_eq]
    exact hreduced.unique hreduced'

/-- What the criterion may change. -/
structure AgreesWithCriterion (n : ℕ) (generators : List (Polynomial R)) (order : Order)
    (config : Config) : Prop where
  refused_or_ok : ∀ criterion,
    (∃ cause, outcomeWith generators order config criterion = .error (.arithmetic cause)) ∨
      ∃ basis, outcomeWith generators order config criterion = .ok basis
  /-- Over a field nothing changes if the basis is made monic, and constants otherwise. -/
  of_isField : (Coefficient.domain R).isField = true →
    ∃ basis basis', outcomeWith generators order config false = .ok basis ∧
      outcomeWith generators order config true = .ok basis' ∧ SameUpToUnits basis basis' ∧
      (config.monic = true → sameBasis basis basis' = true)
  of_ne_top : ∀ basis basis', outcomeWith generators order config false = .ok basis →
    outcomeWith generators order config true = .ok basis' →
    Ideal.span (denotations n generators) ≠ ⊤ → SameUpToUnits basis basis'
  of_length_le_one : (generators.filter fun g => !g.isZero).length ≤ 1 →
    ∃ basis, ∀ criterion, outcomeWith generators order config criterion = .ok basis

/-- Where inverses are missing a computation may be refused with the criterion or without it. But
bases that are found both ways are the same up to invertible constants, unless the ideal is the whole
ring, and over a field they always are. -/
theorem groebnerBasis_productCriterion (h : order.accepts n = true)
    (hn : ∀ g ∈ generators, g.nvars = n) (htol : config.tolerance = none)
    (hcheck : config.check = false) : AgreesWithCriterion n generators order config where
  refused_or_ok criterion := by
    rcases outcomeWith_spec h hn htol hcheck criterion with herror | ⟨_, basis, -, hok, -⟩
    · exact .inl herror
    · exact .inr ⟨basis, hok⟩
  of_isField hfield := by
    have := DomainCoefficient.fieldCoefficient hfield
    exact sameUpToUnits_of_field h hn htol
  of_ne_top _ _ := sameUpToUnits_of_outcomeWith h hn htol hcheck
  of_length_le_one := outcomeWith_of_length_le_one h hn htol hcheck

theorem groebnerBasis_productCriterion_integers :
    AgreesWithCriterion 1
      [.univariate (.ofCoefficients [-1, 0, 1] : Univariate ℤ), .univariate (.ofCoefficients [1, 1])]
      .degRevlex {} := by
  apply groebnerBasis_productCriterion rfl _ rfl rfl
  simp [Polynomial.nvars]

section Lines

/-- A polynomial in two variables modulo three. -/
def planar (terms : List (Monomial × Residue 3)) : Polynomial (Residue 3) :=
  .multinomial (.ofTerms 2 Nat.two_pos terms)

/-- The lines `Y = -1`, `X = 0` and `X = -1`, which have no point in common. -/
def lines : List (Polynomial (Residue 3)) :=
  [planar [([0, 1], 1), ([0, 0], 1)], planar [([1, 0], 1)], planar [([1, 0], 1), ([0, 0], 1)]]

private theorem nvars_planar (terms : List (Monomial × Residue 3)) : (planar terms).nvars = 2 :=
  Multinomial.nvars_ofTerms _ _ _

private theorem nvars_lines : ∀ g ∈ lines, g.nvars = 2 := by
  simp only [lines, List.forall_mem_cons, nvars_planar, true_and]
  exact nofun

private theorem proper_lines : Proper 2 lines :=
  .of_isZero nvars_lines (by decide +kernel)

private def linesReducer : Reducer (Residue 3) where
  order := .lex
  tolerance := none
  nvars := some 2
  divisors := [.polynomial (planar [([0, 1], 1), ([0, 0], 1)]) [0, 1] 1,
    .polynomial (planar [([1, 0], 1)]) [1, 0] 1,
    .polynomial (planar [([1, 0], 1), ([0, 0], 1)]) [1, 0] 1]

private theorem ofElements_lines :
    ofElements .lex none (lines.map (element .lex)) = .ok linesReducer := by
  cbv

private theorem normalForm_lines_join :
    (linesReducer.normalForm (planar [([1, 0], 1)])).result = .ok (planar []) := by
  have hfirst : linesReducer.cancelFirst? (planar [([1, 0], 1)]) [[1, 0]] =
      .ok (some ⟨[1, 0], by decide, planar [([1, 0], 1)], planar []⟩) := by cbv
  have hrest : Order.lex.descending (planar []).monomials = [] := by cbv
  rw [result_normalForm_some (by cbv) (by cbv) hfirst]
  exact result_normalFormBelow_none (congrArg _ hrest) rfl

private theorem normalForm_lines_coprime :
    (linesReducer.normalForm (planar [([1, 0], 1), ([0, 1], -1)])).result =
      .ok (planar [([0, 0], 1)]) := by
  have hfirst : linesReducer.cancelFirst? (planar [([1, 0], 1), ([0, 1], -1)]) [[1, 0], [0, 1]] =
      .ok (some ⟨[1, 0], by decide, planar [([1, 0], 1)], planar [([0, 1], -1)]⟩) := by cbv
  have hsecond : linesReducer.cancelFirst? (planar [([0, 1], -1)]) [[0, 1]] =
      .ok (some ⟨[0, 1], by decide, planar [([0, 1], 1), ([0, 0], 1)],
        planar [([0, 0], 1)]⟩) := by cbv
  have hY : Order.lex.descending (planar [([0, 1], -1)]).monomials = [[0, 1]] := by cbv
  have hone : Order.lex.descending (planar [([0, 0], 1)]).monomials = [[0, 0]] := by cbv
  have hYX : Order.lex.Below [0, 1] [1, 0] := .inr ⟨rfl, .rel Nat.one_pos⟩
  have honeY : Order.lex.Below [0, 0] [0, 1] := .inr ⟨rfl, .cons (.rel Nat.one_pos)⟩
  rw [result_normalForm_some (by cbv) (by cbv) hfirst,
    result_normalFormBelow_some ((congrArg _ hY).trans
      (List.filter_cons_of_pos (decide_eq_true hYX))) hsecond]
  exact result_normalFormBelow_none ((congrArg _ hone).trans
    (List.filter_cons_of_pos (decide_eq_true honeY))) (by cbv)

private theorem normalForm_lines_parallel :
    (linesReducer.normalForm (planar [([0, 0], -1)])).result = .ok (planar [([0, 0], -1)]) := by
  have hms : Order.lex.descending (planar [([0, 0], -1)]).monomials = [[0, 0]] := by cbv
  exact result_normalForm_none (by cbv) hms (by cbv)

private theorem criticalPairs_lines : criticalPairs lines.length = [(0, 1), (0, 2), (1, 2)] := rfl

section Result

variable {k : Polynomial (Residue 3)} {c : Residue 3} {config : Config} (hk : k.nvars = 2)
  (hterms : k.terms = [([0, 0], c)])
include hk hterms

private theorem proper_lines_append : Proper 2 (lines ++ [k]) := by
  apply proper_lines.append (Proper.singleton hk _)
  rw [← isZero_eq_false_iff hk, ← Bool.not_eq_true, isZero_iff_terms, hterms]
  exact List.cons_ne_nil _ _

private theorem groebnerBasis_lines (htol : config.tolerance = none) (hmonic : config.monic = false)
    (hcheck : config.check = false)
    (hcomplete : (complete Element.monomial? (fun elements _ f g => join .lex config elements f g)
      (lines.map (element .lex)) (criticalPairs lines.length)).result =
        .ok ((lines ++ [k]).map (element .lex))) :
    (groebnerBasis lines .lex config).result = .ok [k] := by
  have hnonzero : lines.filter (fun g => !g.isZero) = lines := rfl
  apply result_groebnerBasis_of_constant rfl hterms (proper_lines_append hk hterms) nvars_lines
    htol hmonic hcheck
  rw [hnonzero, result_buchberger rfl htol proper_lines, Traced.result_bind hcomplete,
    map_polynomial_element]
  rfl

end Result

private theorem outcomeWith_lines_false :
    outcomeWith lines .lex { monic := false } false = .ok [planar [([0, 0], 1)]] := by
  have htol : ({ monic := false } : Config).tolerance = none := rfl
  have hterms : (planar [([0, 0], 1)]).terms = [([0, 0], 1)] := by cbv
  have hjoin : sPolynomial (planar [([0, 1], 1), ([0, 0], 1)]) (planar [([1, 0], 1)]) .lex none =
      .ok (planar [([1, 0], 1)]) := by cbv
  have hcoprime : sPolynomial (planar [([0, 1], 1), ([0, 0], 1)])
      (planar [([1, 0], 1), ([0, 0], 1)]) .lex none =
        .ok (planar [([1, 0], 1), ([0, 1], -1)]) := by cbv
  have hadvances : advances Element.monomial? (lines.map (element .lex)) (0, 2)
      (element .lex (planar [([0, 0], 1)])) = true := by cbv
  apply groebnerBasis_lines (nvars_planar _) hterms htol rfl rfl
  rw [criticalPairs_lines,
    result_complete_none rfl rfl
      (result_join_reduced htol rfl ofElements_lines hjoin normalForm_lines_join),
    result_complete_some rfl rfl
      (result_join_reduced htol rfl ofElements_lines hcoprime normalForm_lines_coprime) hadvances]
  exact result_complete_of_constant rfl hterms htol (List.mem_append_right _ (by simp))
    (proper_lines_append (nvars_planar _) hterms) _

private theorem outcomeWith_lines_true :
    outcomeWith lines .lex { monic := false } true = .ok [planar [([0, 0], -1)]] := by
  have htol : ({ monic := false, productCriterion := true } : Config).tolerance = none := rfl
  have hterms : (planar [([0, 0], -1)]).terms = [([0, 0], -1)] := by cbv
  have hparallel : sPolynomial (planar [([1, 0], 1)]) (planar [([1, 0], 1), ([0, 0], 1)]) .lex
      none = .ok (planar [([0, 0], -1)]) := by cbv
  have hadvances : advances Element.monomial? (lines.map (element .lex)) (1, 2)
      (element .lex (planar [([0, 0], -1)])) = true := by cbv
  apply groebnerBasis_lines (nvars_planar _) hterms htol rfl rfl
  rw [criticalPairs_lines,
    result_complete_none rfl rfl (result_join_passed rfl (by cbv) _),
    result_complete_none rfl rfl (result_join_passed rfl (by cbv) _),
    result_complete_some rfl rfl
      (result_join_reduced htol (by cbv) ofElements_lines hparallel normalForm_lines_parallel)
      hadvances]
  exact result_complete_of_constant rfl hterms htol (List.mem_append_right _ (by simp))
    (proper_lines_append (nvars_planar _) hterms) _

end Lines

section Constants

/-- Two integers without a common factor. -/
def twoAndThree : List (Polynomial ℤ) :=
  [.univariate (.ofCoefficients [2]), .univariate (.ofCoefficients [3])]

private theorem proper_twoAndThree : Proper 1 twoAndThree :=
  .of_isZero (by decide) (by decide)

private theorem outcomeWith_twoAndThree_false :
    ∃ cause, outcomeWith twoAndThree .lex {} false = .error (.arithmetic cause) := by
  have h : Order.lex.accepts 1 = true := rfl
  refine (outcomeWith_spec h proper_twoAndThree.nvars_eq rfl rfl false).resolve_right ?_
  rintro ⟨completed, -, hc, -, -⟩
  have hmem : Polynomial.univariate (.ofCoefficients [2] : Univariate ℤ) ∈ completed :=
    hc.contains.subset List.mem_cons_self
  have htwo := leadingCoefficient_ok h (hc.proper.nvars_eq _ hmem) (hc.proper.denote_ne_zero _ hmem)
  have hunit := hc.isUnit_leadingCoeff h rfl (by decide) _ (denote_mem_denotations hmem)
  rw [← Except.ok.inj htwo] at hunit
  exact absurd hunit (by decide)

private theorem buchberger_twoAndThree :
    (buchberger twoAndThree .lex { productCriterion := true }).result = .ok twoAndThree := by
  have h : Order.lex.accepts 1 = true := rfl
  have hpairs : criticalPairs twoAndThree.length = [(0, 1)] := rfl
  rw [result_buchberger h rfl proper_twoAndThree, hpairs,
    Traced.result_bind (result_complete_of_none ?_)]
  · rfl
  · intro p hp f g hf hg
    obtain rfl := List.mem_singleton.mp hp
    obtain rfl := Option.some.inj hf
    obtain rfl := Option.some.inj hg
    exact result_join_passed rfl rfl _

private theorem autoreduce_twoAndThree :
    (autoreduce twoAndThree .lex none).result = .ok twoAndThree := by
  have htwo : ofElements .lex none [element .lex (.univariate (.ofCoefficients [(2 : ℤ)]))] =
      .ok ⟨.lex, none, some 1, [.polynomial (.univariate (.ofCoefficients [2])) [0] 2]⟩ := by cbv
  have hthree : ofElements .lex none [element .lex (.univariate (.ofCoefficients [(3 : ℤ)]))] =
      .ok ⟨.lex, none, some 1, [.polynomial (.univariate (.ofCoefficients [3])) [0] 3]⟩ := by cbv
  exact result_autoreduce_pair
    (result_reduceByOthers_kept [[0]] hthree (by cbv) (by cbv) (by cbv) (by cbv))
    (result_reduceByOthers_kept [[0]] htwo (by cbv) (by cbv) (by cbv) (by cbv))

private theorem outcomeWith_twoAndThree_true :
    outcomeWith twoAndThree .lex {} true = .ok twoAndThree :=
  result_groebnerBasis_of_kept proper_twoAndThree (List.cons_ne_nil _ _) rfl rfl
    buchberger_twoAndThree autoreduce_twoAndThree rfl (by cbv)

end Constants

/-- Unless leading coefficients are made one the criterion can be told from the basis. Two integers that
are refused without it are returned with it, though they generate everything. -/
theorem productCriterion_changes_outcome :
    (∃ basis basis', outcomeWith lines .lex { monic := false } false = .ok basis ∧
      outcomeWith lines .lex { monic := false } true = .ok basis' ∧
      sameBasis basis basis' = false) ∧
    (∃ cause, outcomeWith twoAndThree .lex {} false = .error (.arithmetic cause)) ∧
    outcomeWith twoAndThree .lex {} true = .ok twoAndThree :=
  ⟨⟨_, _, outcomeWith_lines_false, outcomeWith_lines_true, by decide +kernel⟩,
    outcomeWith_twoAndThree_false, outcomeWith_twoAndThree_true⟩

end PolyIdeal
