import PolyIdeal.Proofs.Basis.Completion
import PolyIdeal.Proofs.Basis.Join
import PolyIdeal.Proofs.Ideal.CoprimePairs
import PolyIdeal.Proofs.Ideal.StrongBasis

/-!
# Buchberger's algorithm

While pairs are joined every pair is pending or joins, and the ideal stays. A remainder has a new
leading term, so the completion runs until no pair is pending, unless a pair is refused, and what it
gives is a Groebner basis. It is a strong one if no pair may be passed over, since then the leading
coefficients of every pair have inverses.
-/

namespace PolyIdeal.Buchberger

open Monomial MonomialOrder PolyIdeal.Polynomial Reducer Completion

variable {R : Type} [CommRing R] [DecidableEq R] {n : ℕ} {order : Order}
  (h : order.accepts n = true) {basis : List (Polynomial R)} {p q r : Polynomial R}

/-- Every pair of different elements is pending or joins. -/
abbrev PairsJoin (basis : List (Polynomial R)) : List (ℕ × ℕ) → Prop :=
  PairsSettled (fun p q => Joins (order.monomialOrder n h) (denotations n basis) (p.denote n)
    (q.denote n)) basis

section Criterion

variable [IsDomain R]

/-- Buchberger's criterion for a list whose pairs all join. -/
theorem isGroebner_of_pairsJoin (hbasis : Proper n basis) (hpairs : PairsJoin h basis []) :
    IsGroebner (order.monomialOrder n h) (denotations n basis) := by
  apply isGroebner_of_joins
  · rintro F ⟨p, hp, rfl⟩ F' ⟨q, hq, rfl⟩
    exact hpairs.all (fun p => joins_self _) (fun p q hpq => hpq.symm) hp hq
  · exact fun F hF => hbasis.ne_zero hF

omit [IsDomain R] in
private theorem isUnit_leadingCoeff_of_invertible (hpairs : PairsSettled (Invertible h) basis [])
    (hlen : 2 ≤ basis.length) :
    ∀ G ∈ denotations n basis, IsUnit ((order.monomialOrder n h).leadingCoeff G) := by
  match basis with
  | p :: q :: rest =>
    rintro F ⟨g, hg, rfl⟩
    obtain ⟨i, hi⟩ := List.mem_iff_getElem?.mp hg
    cases i with
    | zero => exact ((hpairs 0 1 g q zero_lt_one hi rfl).resolve_left List.not_mem_nil).1
    | succ i =>
      exact ((hpairs 0 (i + 1) p g i.succ_pos rfl hi).resolve_left List.not_mem_nil).2

/-- A Groebner basis of one element is strong, and so is one in which the leading coefficients of
every pair have inverses. -/
private theorem isStrongGroebner_of_invertible
    (hgroebner : IsGroebner (order.monomialOrder n h) (denotations n basis))
    (hpairs : PairsSettled (Invertible h) basis []) :
    IsStrongGroebner (order.monomialOrder n h) (denotations n basis) := by
  match basis with
  | [] =>
    rw [denotations_nil]
    exact isStrongGroebner_empty
  | [g] =>
    rw [denotations_singleton]
    exact isStrongGroebner_singleton _
  | p :: q :: rest =>
    exact hgroebner.isStrongGroebner
      (isUnit_leadingCoeff_of_invertible h hpairs (Nat.le_add_left 2 rest.length))

end Criterion

@[simp] theorem map_polynomial_element (basis : List (Polynomial R)) :
    (basis.map (element order)).map Element.polynomial = basis := by
  simp [Function.comp_def, element]

variable [Coefficient R]

section Advances

variable [ExactCoefficient R]

private theorem monomial?_element_of_isUnit (hn : r.nvars = n)
    (hunit : IsUnit ((order.monomialOrder n h).leadingCoeff (r.denote n))) :
    Element.monomial? (element order r) =
      some (ofExponents ((order.monomialOrder n h).degree (r.denote n))) := by
  have hne := (order.monomialOrder n h).leadingCoeff_ne_zero_iff.mp hunit.ne_zero
  obtain ⟨c, hc, -⟩ := Coefficient.exquo?_one_of_isUnit hunit
  simp only [Element.monomial?, element, divisor_ok h hn hne, divisorOf, hc, Option.map_some]

private theorem monomial?_element_of_not_isUnit (hn : r.nvars = n) (hne : r.denote n ≠ 0)
    (hunit : ¬ IsUnit ((order.monomialOrder n h).leadingCoeff (r.denote n))) :
    Element.monomial? (element order r) = none := by
  simp only [Element.monomial?, element, divisor_ok h hn hne, divisorOf,
    Coefficient.exquo?_one_of_not_isUnit hunit, Option.map_none]

/-- A remainder has a new leading monomial, or its leading coefficient has no inverse while those of
the pair that it comes from have. -/
theorem advances_of_irreducible (hbasis : Proper n basis) {pair : ℕ × ℕ}
    (hp : basis[pair.1]? = some p) (hq : basis[pair.2]? = some q) (hpq : Invertible h p q)
    (hn : r.nvars = n) (hne : r.denote n ≠ 0)
    (hirr : Irreducible (order.monomialOrder n h) (denotations n basis) (r.denote n)) :
    advances Element.monomial? (basis.map (element order)) pair (element order r) = true := by
  by_cases hunit : IsUnit ((order.monomialOrder n h).leadingCoeff (r.denote n))
  · simp only [advances, monomial?_element_of_isUnit h hn hunit, Completion.monomials,
      List.all_eq_true, List.mem_filterMap, List.mem_map]
    rintro x ⟨_, ⟨g, hg, rfl⟩, hx⟩
    have hgn := hbasis.nvars_eq g hg
    by_cases hgunit : IsUnit ((order.monomialOrder n h).leadingCoeff (g.denote n))
    · rw [monomial?_element_of_isUnit h hgn hgunit] at hx
      obtain rfl := Option.some.inj hx
      simp only [length_ofExponents, beq_self_eq_true, divides_ofExponents, Bool.true_and,
        Bool.not_eq_true', decide_eq_false_iff_not]
      intro hle
      exact hirr _ ((order.monomialOrder n h).degree_mem_support hne)
        ⟨_, denote_mem_denotations hg, hle, hgunit.dvd⟩
    · rw [monomial?_element_of_not_isUnit h hgn (hbasis.denote_ne_zero g hg) hgunit] at hx
      cases hx
  · have hpn := hbasis.nvars_eq p (List.mem_of_getElem? hp)
    have hqn := hbasis.nvars_eq q (List.mem_of_getElem? hq)
    simp only [advances, monomial?_element_of_not_isUnit h hn hne hunit, joinable,
      List.getElem?_map, hp, hq, Option.map_some, Option.bind_some,
      monomial?_element_of_isUnit h hpn hpq.1, monomial?_element_of_isUnit h hqn hpq.2,
      Option.isSome_some, Bool.and_self]

end Advances

/-- An arithmetic failure, which only a coefficient without an inverse can cause. -/
structure Refused (R : Type) [CommRing R] (e : Failure) : Prop where
  arithmetic : ∃ cause, e = .arithmetic cause
  exists_not_isUnit : ∃ a : R, a ≠ 0 ∧ ¬ IsUnit a

omit [DecidableEq R] in
theorem not_refused [FieldCoefficient R] (e : Failure) : ¬ Refused R e := by
  rintro ⟨-, a, ha, hunit⟩
  exact hunit (FieldCoefficient.isUnit_of_ne_zero ha)

omit [Coefficient R] in
theorem refused_of_not_invertible (hbasis : Proper n basis) (hp : p ∈ basis) (hq : q ∈ basis)
    (hunit : ¬ Invertible h p q) (cause : ArithmeticCause) : Refused R (.arithmetic cause) := by
  refine ⟨⟨cause, rfl⟩, ?_⟩
  by_cases hpu : IsUnit ((order.monomialOrder n h).leadingCoeff (p.denote n))
  · exact ⟨_, (order.monomialOrder n h).leadingCoeff_ne_zero_iff.mpr
      (hbasis.denote_ne_zero q hq), fun hqu => hunit ⟨hpu, hqu⟩⟩
  · exact ⟨_, (order.monomialOrder n h).leadingCoeff_ne_zero_iff.mpr
      (hbasis.denote_ne_zero p hp), hpu⟩

/-- A pair that need not be looked at again: it has been passed over, or it joins and the leading
coefficients have inverses. -/
def Settled (config : Config) (basis : List (Polynomial R)) (p q : Polynomial R) : Prop :=
  (config.productCriterion = true ∧
      LeadCoprime (order.monomialOrder n h) (p.denote n) (q.denote n)) ∨
    Joins (order.monomialOrder n h) (denotations n basis) (p.denote n) (q.denote n) ∧
      Invertible h p q

section Settled

variable {config : Config}

omit [Coefficient R] in
private theorem Settled.append (hpq : Settled h config basis p q) (r : Polynomial R) :
    Settled h config (basis ++ [r]) p q :=
  hpq.imp_right fun hjoins => ⟨hjoins.1.mono (denotations_mono
    (List.subset_append_left basis [r])), hjoins.2⟩

omit [Coefficient R] in
theorem Settled.joins (hp : p ∈ basis) (hq : q ∈ basis) (hpq : Settled h config basis p q) :
    Joins (order.monomialOrder n h) (denotations n basis) (p.denote n) (q.denote n) := by
  rcases hpq with ⟨-, hcoprime⟩ | ⟨hjoins, -⟩
  · exact hcoprime.joins (denote_mem_denotations hp) (denote_mem_denotations hq)
  · exact hjoins

omit [Coefficient R] in
private theorem Settled.symm (hpq : Settled h config basis p q) : Settled h config basis q p := by
  rcases hpq with ⟨hcriterion, hcoprime⟩ | ⟨hjoins, hpu, hqu⟩
  · exact .inl ⟨hcriterion, hcoprime.symm⟩
  · exact .inr ⟨hjoins.symm, hqu, hpu⟩

end Settled

/-- What the completion of generators keeps: it only appends elements, all proper, to them and keeps
their ideal, every pair is pending or settled, and what is appended is irreducible modulo all before
it. -/
structure IsCompletion (config : Config) (generators basis : List (Polynomial R))
    (pending : List (ℕ × ℕ)) : Prop where
  contains : generators <+: basis
  proper : Proper n basis
  span_eq : Ideal.span (denotations n basis) = Ideal.span (denotations n generators)
  pairs : PairsSettled (Settled h config basis) basis pending
  appended : ∀ i r, generators.length ≤ i → basis[i]? = some r →
    Irreducible (order.monomialOrder n h) (denotations n (basis.take i)) (r.denote n)

namespace IsCompletion

variable {config : Config} {generators : List (Polynomial R)} {pair : ℕ × ℕ} {rest : List (ℕ × ℕ)}

section Pending

variable (hc : IsCompletion h config generators basis (pair :: rest))
  (hp : basis[pair.1]? = some p) (hq : basis[pair.2]? = some q)
include hc hp hq

omit [Coefficient R] in
private theorem settle (hpq : Settled h config basis p q) :
    IsCompletion h config generators basis rest :=
  { hc with pairs := hc.pairs.settle hp hq hpq }

omit [Coefficient R] in
private theorem append (hrn : r.nvars = n) (hr0 : r.denote n ≠ 0)
    (hmem : r.denote n ∈ Ideal.span (denotations n basis))
    (hirr : Irreducible (order.monomialOrder n h) (denotations n basis) (r.denote n))
    (hpq : Settled h config (basis ++ [r]) p q) :
    IsCompletion h config generators (basis ++ [r])
      (rest.merge (pairsWith basis.length) pairBefore) where
  contains := hc.contains.trans (List.prefix_append basis [r])
  proper := hc.proper.append (Proper.singleton hrn hr0)
  span_eq := by
    rw [← hc.span_eq, denotations_concat]
    exact Submodule.span_insert_eq_span hmem
  pairs := ((hc.pairs.imp fun p _ q _ hpq => hpq.append h r).settle hp hq hpq).append r
  appended i r' hi hr' := by
    rcases Nat.lt_trichotomy i basis.length with hlt | rfl | hgt
    · rw [List.getElem?_append_left hlt] at hr'
      rw [List.take_append_of_le_length hlt.le]
      exact hc.appended i r' hi hr'
    · rw [List.getElem?_concat_length] at hr'
      obtain rfl := Option.some.inj hr'
      rwa [List.take_left]
    · rw [List.getElem?_eq_none (by simpa using hgt)] at hr'
      cases hr'

end Pending

section Done

variable [IsDomain R] (hc : IsCompletion h config generators basis [])
include hc

omit [Coefficient R] in
theorem isGroebner : IsGroebner (order.monomialOrder n h) (denotations n basis) :=
  isGroebner_of_pairsJoin h hc.proper (hc.pairs.imp fun _ hp _ hq hpq => hpq.joins h hp hq)

omit [IsDomain R] [Coefficient R] in
private theorem invertible (hfalse : config.productCriterion = false) :
    PairsSettled (Invertible h) basis [] :=
  hc.pairs.imp fun _ _ _ _ hpq =>
    (hpq.resolve_left fun hpassed => absurd (hpassed.1.symm.trans hfalse) nofun).2

omit [Coefficient R] in
theorem isStrongGroebner (hfalse : config.productCriterion = false) :
    IsStrongGroebner (order.monomialOrder n h) (denotations n basis) :=
  isStrongGroebner_of_invertible h hc.isGroebner (hc.invertible h hfalse)

section Units

variable (hfalse : config.productCriterion = false) (hlen : 2 ≤ generators.length)
include hfalse hlen

omit [IsDomain R] [Coefficient R] in
theorem isUnit_leadingCoeff :
    ∀ G ∈ denotations n basis, IsUnit ((order.monomialOrder n h).leadingCoeff G) :=
  isUnit_leadingCoeff_of_invertible h (hc.invertible h hfalse)
    (hlen.trans hc.contains.length_le)

omit [Coefficient R] in
/-- If the leading coefficients have inverses without the criterion, then they have with it, unless
the ideal is the whole ring. -/
theorem isUnit_leadingCoeff_of_ne_top {config' : Config} {basis' : List (Polynomial R)}
    (hc' : IsCompletion h config' generators basis' [])
    (hproper : Ideal.span (denotations n generators) ≠ ⊤) :
    ∀ G ∈ denotations n basis', IsUnit ((order.monomialOrder n h).leadingCoeff G) := by
  have hunit := hc.isUnit_leadingCoeff h hfalse hlen
  intro G hG
  refine isUnit_leadingCoeff_of_pairs hc.isGroebner hunit hc'.isGroebner
    ((List.finite_toSet basis').image _) (fun F hF => hc'.proper.ne_zero hF) ?_
    (hc'.span_eq.trans hc.span_eq.symm) (hc'.span_eq ▸ hproper) hG
  rintro _ ⟨p, hp, rfl⟩ _ ⟨q, hq, rfl⟩ hpq
  have hpairs : PairsSettled (fun p q => p.denote n = q.denote n ∨ Settled h config' basis' p q)
      basis' [] := hc'.pairs.imp fun _ _ _ _ => .inr
  rcases hpairs.all (fun _ => .inl rfl) (fun p q hpq => hpq.imp Eq.symm (Settled.symm h)) hp hq
    with heq | ⟨-, hcoprime⟩ | hjoins
  · exact absurd heq hpq
  · exact .inl hcoprime
  · exact .inr hjoins

end Units

end Done

end IsCompletion

/-- What the completion keeps of the elements and the pending pairs. -/
def CompletionInvariant (config : Config) (generators : List (Polynomial R))
    (elements : List (Element R)) (pending : List (ℕ × ℕ)) : Prop :=
  ∃ basis : List (Polynomial R), elements = basis.map (element order) ∧
    IsCompletion h config generators basis pending

variable {config : Config} {generators : List (Polynomial R)} {elements : List (Element R)}
  {pair : ℕ × ℕ} {rest : List (ℕ × ℕ)}

omit [Coefficient R] in
private theorem completionInvariant_skip
    (hinv : CompletionInvariant h config generators elements (pair :: rest))
    (hnone : elements[pair.1]? = none ∨ elements[pair.2]? = none) :
    CompletionInvariant h config generators elements rest := by
  obtain ⟨basis, rfl, hc⟩ := hinv
  refine ⟨basis, rfl, { hc with pairs := hc.pairs.skip ?_ }⟩
  intro p q hp hq
  simp [hp, hq] at hnone

omit [Coefficient R] in
theorem completionInvariant_start (hproper : Proper n generators) {pending : List (ℕ × ℕ)}
    (hpending : criticalPairs generators.length ⊆ pending) :
    CompletionInvariant h config generators (generators.map (element order)) pending := by
  refine ⟨generators, rfl, List.prefix_rfl, hproper, rfl, ?_, ?_⟩
  · intro i j f g hij hi hj
    exact (pairsSettled_criticalPairs i j f g hij hi hj).imp_left fun hmem => hpending hmem
  · intro i r hi hr
    rw [List.getElem?_eq_none hi] at hr
    cases hr

omit [Coefficient R] in
theorem mapM_leadingMonomial {generators : List (Polynomial R)} (hproper : Proper n generators) :
    generators.mapM (leadingMonomial order) = .ok (generators.map fun g =>
      ofExponents ((order.monomialOrder n h).degree (g.denote n))) :=
  mapM_ok fun g hg => leadingMonomial_ok h (hproper.nvars_eq g hg) (hproper.denote_ne_zero g hg)

variable [ExactCoefficient R] (htol : config.tolerance = none)
include htol

theorem completionInvariant_step {f g : Element R}
    (hinv : CompletionInvariant h config generators elements (pair :: rest))
    (hf : elements[pair.1]? = some f) (hg : elements[pair.2]? = some g) :
    (∃ e, (join order config elements f g).result = .error e ∧ Refused R e) ∨
      ((join order config elements f g).result = .ok none ∧
        CompletionInvariant h config generators elements rest) ∨
      ∃ r, (join order config elements f g).result = .ok (some r) ∧
        advances Element.monomial? elements pair r = true ∧
        CompletionInvariant h config generators (elements ++ [r])
          (rest.merge (pairsWith elements.length) pairBefore) := by
  obtain ⟨basis, rfl, hc⟩ := hinv
  rw [List.getElem?_map, Option.map_eq_some_iff] at hf hg
  obtain ⟨p, hp, rfl⟩ := hf
  obtain ⟨q, hq, rfl⟩ := hg
  have hpmem := List.mem_of_getElem? hp
  have hqmem := List.mem_of_getElem? hq
  generalize hfound : (join order config (basis.map (element order)) (element order p)
    (element order q)).result = found
  have hjoin := join_spec h hc.proper hpmem hqmem htol
  rw [hfound] at hjoin
  cases hjoin with
  | refused hunit => exact .inl ⟨_, rfl, refused_of_not_invertible h hc.proper hpmem hqmem hunit _⟩
  | passedOver hcriterion hcoprime =>
    exact .inr (.inl ⟨rfl, basis, rfl, hc.settle h hp hq (.inl ⟨hcriterion, hcoprime⟩)⟩)
  | joins hunit hjoins =>
    exact .inr (.inl ⟨rfl, basis, rfl, hc.settle h hp hq (.inr ⟨hjoins, hunit⟩)⟩)
  | @remainder r hunit hrn hr0 hmem hirr hjoins =>
    refine .inr (.inr ⟨element order r, rfl,
      advances_of_irreducible h hc.proper hp hq hunit hrn hr0 hirr, basis ++ [r], by simp, ?_⟩)
    rw [List.length_map]
    exact hc.append h hp hq hrn hr0 hmem hirr (.inr ⟨hjoins, hunit⟩)

section Generators

variable {generators : List (Polynomial R)} (hproper : Proper n generators)
include hproper

omit [ExactCoefficient R] in
include h in
theorem result_buchberger : (buchberger generators order config).result =
    (complete Element.monomial? (fun elements _ f g => join order config elements f g)
      (generators.map (element order)) (criticalPairs generators.length) >>= fun completed =>
        pure (completed.map Element.polynomial)).result := by
  obtain ⟨reducer, hreducer, -⟩ := ofElements_ok h hproper
  rw [buchberger, Traced.result_lift_bind (mapM_leadingMonomial h hproper), htol]
  dsimp only
  rw [Traced.result_lift_bind hreducer, List.length_map]

omit [ExactCoefficient R] in
include h in
theorem result_buchberger_of_length_le_one (hlen : generators.length ≤ 1) :
    (buchberger generators order config).result = .ok generators := by
  have hpairs : criticalPairs generators.length = [] := by
    rw [List.eq_nil_iff_forall_not_mem]
    rintro ⟨i, j⟩ hij
    have hlt := mem_criticalPairs.mp hij
    omega
  rw [result_buchberger h htol hproper, hpairs, complete, Traced.result_bind rfl]
  exact congrArg Except.ok (map_polynomial_element generators)

/-- The completion of generators other than zero comes to an end, unless it is refused. -/
theorem buchberger_spec :
    (∃ e, (buchberger generators order config).result = .error e ∧ Refused R e) ∨
      ∃ basis, (buchberger generators order config).result = .ok basis ∧
        IsCompletion h config generators basis [] := by
  have hrun := complete_invariant (fun _ _ _ => completionInvariant_skip h)
    (fun _ _ _ _ _ => completionInvariant_step h htol)
    (completionInvariant_start h hproper (List.Subset.refl _))
  rw [result_buchberger h htol hproper]
  rcases hrun with ⟨e, herror, hrefused⟩ | ⟨_, hcomplete, basis, rfl, hc⟩
  · exact .inl ⟨e, Traced.result_bind_error herror _, hrefused⟩
  · refine .inr ⟨basis, ?_, hc⟩
    rw [Traced.result_bind hcomplete, map_polynomial_element]
    rfl

end Generators

end PolyIdeal.Buchberger
