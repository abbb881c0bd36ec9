import PolyIdeal.Proofs.Basis.Groebner

/-!
# Bases over the integers

Where not every coefficient has an inverse a computation may be refused. But a basis that it finds is
a strong one: it has a single element, or it comes from a list in which every leading coefficient is
invertible.
-/

namespace PolyIdeal

open PolyIdeal.Polynomial Reducer Buchberger Completion

variable {n : ℕ} {order : Order} {generators : List (Polynomial ℤ)}

/-- Over the integers a basis that is found decides membership in the ideal of the generators. -/
theorem groebnerBasis_integers (h : order.accepts n = true) (hn : ∀ g ∈ generators, g.nvars = n) :
    (∃ cause, (groebnerBasis generators order {}).result = .error (.arithmetic cause)) ∨
      ∃ basis, (groebnerBasis generators order {}).result = .ok basis ∧
        (∀ g ∈ basis, g.nvars = n) ∧
        Ideal.span (denotations n basis) = Ideal.span (denotations n generators) ∧
        DecidesMembership order n basis := by
  have htol : ({} : Config).tolerance = none := rfl
  have hrun := groebnerBasis_run h hn htol fun hcheck => absurd hcheck nofun
  rcases hrun with ⟨_, herror, ⟨⟨cause, rfl⟩, -⟩, -⟩ | ⟨_, basis, -, hc, hresult, hbasis⟩
  · exact .inl ⟨cause, herror⟩
  · exact .inr ⟨basis, hresult, hbasis.proper.nvars_eq, hbasis.span_eq,
      decidesMembership_of_isStrongGroebner h hbasis.proper
        (hbasis.isStrongGroebner (hc.isStrongGroebner h rfl))⟩

/-- `2 * X + 1`, whose leading coefficient has no inverse. -/
def twicePlusOne : List (Polynomial ℤ) := [.univariate (.ofCoefficients [1, 2])]

/-- `X ^ 2 - 4` and `X * Y - 2 * Y`, which vanish on a line and at a point. -/
def lineAndPoint : List (Polynomial ℤ) :=
  [.multinomial (.ofTerms 2 Nat.two_pos [([2, 0], 1), ([0, 0], -4)]),
    .multinomial (.ofTerms 2 Nat.two_pos [([1, 1], 1), ([0, 1], -2)])]

private theorem proper_lineAndPoint : Proper 2 lineAndPoint :=
  .of_isZero
    (List.forall_mem_cons.mpr ⟨Multinomial.nvars_ofTerms _ _ _,
      List.forall_mem_singleton.mpr (Multinomial.nvars_ofTerms _ _ _)⟩)
    (by decide +kernel)

private theorem result_groebnerBasis_twicePlusOne :
    (groebnerBasis twicePlusOne .lex {}).result = .ok twicePlusOne := by
  have h : Order.lex.accepts 1 = true := rfl
  have htol : ({} : Config).tolerance = none := rfl
  have hproper : Proper 1 twicePlusOne := .of_isZero (by decide) (by decide)
  have hcompleted := result_buchberger_of_length_le_one h htol hproper (Nat.le_refl 1)
  have hnone : ofElements .lex none ([] : List (Element ℤ)) = .ok ⟨.lex, none, none, []⟩ := by cbv
  have hkept := result_reduceByOthers_kept (f := twicePlusOne[0]) [[1], [0]] hnone (by cbv) (by cbv)
    (by cbv) (by cbv)
  exact result_groebnerBasis_of_kept hproper (List.cons_ne_nil _ _) htol rfl hcompleted
    (result_autoreduce_singleton hkept) rfl (by cbv)

private theorem buchberger_lineAndPoint :
    (buchberger lineAndPoint .lex {}).result = .ok lineAndPoint := by
  have h : Order.lex.accepts 2 = true := rfl
  have htol : ({} : Config).tolerance = none := rfl
  let s : Polynomial ℤ := .multinomial (.ofTerms 2 Nat.two_pos [([1, 1], 2), ([0, 1], -4)])
  let zero : Polynomial ℤ := .multinomial (.ofTerms 2 Nat.two_pos [])
  let reducer : Reducer ℤ :=
    { order := .lex
      tolerance := none
      nvars := some 2
      divisors := [.polynomial lineAndPoint[0] [2, 0] 1, .polynomial lineAndPoint[1] [1, 1] 1] }
  have hreducer : ofElements .lex none (lineAndPoint.map (element .lex)) = .ok reducer := by cbv
  have hs : sPolynomial lineAndPoint[0] lineAndPoint[1] .lex none = .ok s := by cbv
  have hms : Order.lex.descending s.monomials = [[1, 1], [0, 1]] := by cbv
  have hfirst : reducer.cancelFirst? s [[1, 1], [0, 1]] =
      .ok (some ⟨[1, 1], by decide, lineAndPoint[1], zero⟩) := by cbv
  have hrest : Order.lex.descending zero.monomials = [] := by cbv
  have hzero : zero.isZero = true := by cbv
  have hnormal : (reducer.normalForm s).result = .ok zero := by
    rw [result_normalForm_some (by cbv) hms hfirst]
    exact result_normalFormBelow_none (congrArg _ hrest) rfl
  have hjoin : (join .lex {} (lineAndPoint.map (element .lex)) (element .lex lineAndPoint[0])
      (element .lex lineAndPoint[1])).result = .ok none := by
    rw [result_join_reduced htol (Bool.false_and _) hreducer hs hnormal, if_pos hzero]
  have hpairs : criticalPairs lineAndPoint.length = [(0, 1)] := rfl
  rw [result_buchberger h htol proper_lineAndPoint, hpairs,
    Traced.result_bind (result_complete_of_none ?_)]
  · rfl
  · intro p hp f g hf hg
    obtain rfl := List.mem_singleton.mp hp
    obtain rfl := Option.some.inj hf
    obtain rfl := Option.some.inj hg
    exact hjoin

private theorem autoreduce_lineAndPoint :
    (autoreduce lineAndPoint .lex none).result = .ok lineAndPoint := by
  have hline : ofElements .lex none [element .lex lineAndPoint[0]] =
      .ok ⟨.lex, none, some 2, [.polynomial lineAndPoint[0] [2, 0] 1]⟩ := by cbv
  have hpoint : ofElements .lex none [element .lex lineAndPoint[1]] =
      .ok ⟨.lex, none, some 2, [.polynomial lineAndPoint[1] [1, 1] 1]⟩ := by cbv
  exact result_autoreduce_pair
    (result_reduceByOthers_kept [[2, 0], [0, 0]] hpoint (by cbv) (by cbv) (by cbv) (by cbv))
    (result_reduceByOthers_kept [[1, 1], [0, 1]] hline (by cbv) (by cbv) (by cbv) (by cbv))

private theorem result_groebnerBasis_lineAndPoint :
    (groebnerBasis lineAndPoint .lex {}).result = .ok lineAndPoint :=
  result_groebnerBasis_of_kept proper_lineAndPoint (List.cons_ne_nil _ _) rfl rfl
    buchberger_lineAndPoint autoreduce_lineAndPoint rfl (by cbv)

theorem groebnerBasis_integers_lineAndPoint :
    (∃ basis, (groebnerBasis twicePlusOne .lex {}).result = .ok basis ∧ (∀ g ∈ basis, g.nvars = 1) ∧
      Ideal.span (denotations 1 basis) = Ideal.span (denotations 1 twicePlusOne) ∧
      DecidesMembership .lex 1 basis) ∧
    ∃ basis, (groebnerBasis lineAndPoint .lex {}).result = .ok basis ∧
      (∀ g ∈ basis, g.nvars = 2) ∧
      Ideal.span (denotations 2 basis) = Ideal.span (denotations 2 lineAndPoint) ∧
      DecidesMembership .lex 2 basis := by
  have hnvars : ∀ g ∈ twicePlusOne, g.nvars = 1 := by decide
  constructor
  · refine (groebnerBasis_integers rfl hnvars).resolve_left fun ⟨_, herror⟩ => ?_
    exact absurd (herror.symm.trans result_groebnerBasis_twicePlusOne) nofun
  · refine (groebnerBasis_integers rfl proper_lineAndPoint.nvars_eq).resolve_left
      fun ⟨_, herror⟩ => ?_
    exact absurd (herror.symm.trans result_groebnerBasis_lineAndPoint) nofun

end PolyIdeal
