import PolyIdeal.Proofs.Basis.Autoreduction
import PolyIdeal.Proofs.Basis.Scan
import PolyIdeal.Proofs.Polynomial.Chop
import PolyIdeal.Proofs.Reduction.Tolerance

/-!
# Truncated steps

With a tolerance s-polynomials, remainders and changed elements are truncated, and no ideal is kept.
What is kept is that nothing in the list is within the tolerance. A truncated remainder still has a
new leading monomial, and an element that is changed still becomes lower: what is above the highest
monomial that reduction cancels is above the tolerance and stays.
-/

namespace PolyIdeal

open Monomial MonomialOrder PolyIdeal.Polynomial Reducer

section TruncatedForm

variable {σ : Type} {tolerance : Option Tolerance} {m : MonomialOrder σ}
  {G : Set (MvPolynomial σ ℚ)} {F F' : MvPolynomial σ ℚ}

/-- What is left of a normal form when everything within the tolerance is left out. -/
def IsTruncatedForm (tolerance : Option Tolerance) (m : MonomialOrder σ)
    (G : Set (MvPolynomial σ ℚ)) (F F' : MvPolynomial σ ℚ) : Prop :=
  ∃ r, IsNormalForm m G F r ∧ IsChop tolerance r F'

namespace IsTruncatedForm

variable (h : IsTruncatedForm tolerance m G F F')
include h

private theorem isChopped : IsChopped tolerance F' := by
  obtain ⟨r, -, hchop⟩ := h
  exact hchop.isChopped

private theorem irreducible : Irreducible m G F' := by
  obtain ⟨r, hnf, hchop⟩ := h
  exact hchop.irreducible hnf.irreducible

/-- The highest monomial where they differ is gone. -/
private theorem eq_or_lower (hF : IsChopped tolerance F) : F' = F ∨
    ∃ d ∈ F.support, F'.coeff d = 0 ∧
      ∀ e, m.toSyn d < m.toSyn e → F'.coeff e = F.coeff e := by
  obtain ⟨r, hnf, hchop⟩ := h
  rcases hnf.eq_or_lower with rfl | ⟨d, hd, hzero, habove⟩
  · exact .inl (hchop.eq_of_isChopped hF)
  · exact .inr ⟨d, hd, hchop.coeff_eq_zero hzero,
      fun e he => hchop.coeff_eq_of_isChopped hF (habove e he)⟩

private theorem eq_of_empty (hF : IsChopped tolerance F) (hG : G = ∅) : F' = F := by
  obtain ⟨r, hnf, hchop⟩ := h
  have hsub := hnf.sub_mem_ideal
  rw [hG, Ideal.span_empty, Ideal.mem_bot, sub_eq_zero] at hsub
  subst hsub
  exact hchop.eq_of_isChopped hF

end IsTruncatedForm

end TruncatedForm

variable {n : ℕ} {tolerance : Option Tolerance} {basis : List (Polynomial ℚ)}

/-- Polynomials other than zero of which nothing is within the tolerance. -/
structure Truncated (n : ℕ) (tolerance : Option Tolerance) (basis : List (Polynomial ℚ)) :
    Prop where
  proper : Proper n basis
  isChopped : ∀ g ∈ basis, IsChopped tolerance (g.denote n)

namespace Truncated

private theorem subset {basis' : List (Polynomial ℚ)} (h : Truncated n tolerance basis)
    (hsub : basis' ⊆ basis) : Truncated n tolerance basis' where
  proper := h.proper.subset hsub
  isChopped g hg := h.isChopped g (hsub hg)

private theorem others {before after : List (Polynomial ℚ)} {g : Polynomial ℚ}
    (h : Truncated n tolerance (before ++ g :: after)) : Truncated n tolerance (before ++ after) :=
  h.subset ((List.sublist_cons_self g after).append_left before).subset

private theorem cons {r : Polynomial ℚ} (h : Truncated n tolerance basis) (hn : r.nvars = n)
    (hne : r.denote n ≠ 0) (hr : IsChopped tolerance (r.denote n)) :
    Truncated n tolerance (r :: basis) where
  proper := (Proper.singleton hn hne).append h.proper
  isChopped g hg := by
    rcases List.mem_cons.mp hg with rfl | hg
    · exact hr
    · exact h.isChopped g hg

end Truncated

variable {order : Order} (h : order.accepts n = true) (htol : IsRational tolerance)

include h htol in
/-- Every polynomial in the variables of a basis has a truncated normal form. -/
theorem truncatedForm_ok {r : Reducer ℚ} (hr : r.Over h basis) {f : Polynomial ℚ}
    (hf : f.nvars = n) :
    ∃ f₁ f₂, (({ r with tolerance } : Reducer ℚ).normalForm f).result = .ok f₁ ∧
      f₁.chop tolerance = .ok f₂ ∧ f₂.nvars = n ∧
      IsTruncatedForm tolerance (order.monomialOrder n h) (denotations n basis) (f.denote n)
        (f₂.denote n) := by
  obtain ⟨f₁, hf₁, hn₁, hnf⟩ := normalForm_spec h hr hf
  obtain ⟨f₂, hf₂, hn₂, hchop⟩ := chop_ok htol hn₁
  refine ⟨f₁, f₂, ?_, hf₂, hn₂, _, hnf, hchop⟩
  rw [result_normalForm_tolerance h hr tolerance hf, hf₁]

include h htol in
theorem sPolynomial_truncated (hbasis : Proper n basis) {p q : Polynomial ℚ} (hp : p ∈ basis)
    (hq : q ∈ basis) : ∃ s, sPolynomial p q order tolerance = .ok s ∧ s.nvars = n := by
  have hunit := hbasis.isUnit_leadingCoeff (order.monomialOrder n h)
  obtain ⟨s, -, hs, hsn, -, -⟩ := sPolynomial_ok h (hbasis.nvars_eq p hp) (hbasis.nvars_eq q hq)
    (hunit _ (denote_mem_denotations hp)) (hunit _ (denote_mem_denotations hq))
  obtain ⟨s', hs', hsn', -⟩ := chop_ok htol hsn
  refine ⟨s', ?_, hsn'⟩
  rw [sPolynomial_tolerance, hs]
  exact hs'

section Join

open Buchberger Completion

variable {config : Config} (hconfig : IsRational config.tolerance)
include hconfig

private theorem join_truncated (hbasis : Proper n basis) {p q : Polynomial ℚ} (hp : p ∈ basis)
    (hq : q ∈ basis) :
    (join order config (basis.map (element order)) (element order p)
        (element order q)).result = .ok none ∨
      ∃ r, (join order config (basis.map (element order)) (element order p)
          (element order q)).result = .ok (some (element order r)) ∧
        r.nvars = n ∧ r.denote n ≠ 0 ∧ IsChopped config.tolerance (r.denote n) ∧
        Irreducible (order.monomialOrder n h) (denotations n basis) (r.denote n) := by
  rw [join]
  split
  · exact .inl rfl
  · obtain ⟨reducer, hr, hreducer⟩ := ofElements_tolerance h hbasis config.tolerance
    obtain ⟨s, hs, hsn⟩ := sPolynomial_truncated h hconfig hbasis hp hq
    obtain ⟨r₁, r, hr₁, hchop, hrn, hform⟩ := truncatedForm_ok h hconfig hr hsn
    rw [Traced.result_lift_bind hreducer]
    simp only [element]
    rw [Traced.result_lift_bind hs, Traced.result_bind hr₁, Traced.result_lift_bind hchop]
    by_cases hzero : r.isZero = true
    · rw [if_pos hzero]
      exact .inl rfl
    · rw [if_neg hzero]
      refine .inr ⟨r, rfl, hrn, ?_, hform.isChopped, hform.irreducible⟩
      rwa [ne_eq, ← isZero_iff hrn]

end Join

/-- A list of elements that is truncated and not empty. -/
def TruncatedElements (n : ℕ) (order : Order) (tolerance : Option Tolerance)
    (elements : List (Element ℚ)) : Prop :=
  ∃ basis, elements = basis.map (element order) ∧ basis ≠ [] ∧ Truncated n tolerance basis

section Completion

open Buchberger Completion

include h in
theorem truncatedElements_join {config : Config} (hconfig : IsRational config.tolerance)
    {elements : List (Element ℚ)} {pair : ℕ × ℕ} {f g : Element ℚ}
    (hinv : TruncatedElements n order config.tolerance elements)
    (hf : elements[pair.1]? = some f) (hg : elements[pair.2]? = some g) :
    (join order config elements f g).result = .ok none ∨
      ∃ r, (join order config elements f g).result = .ok (some r) ∧
        advances Element.monomial? elements pair r = true ∧
        TruncatedElements n order config.tolerance (elements ++ [r]) := by
  obtain ⟨basis, rfl, hne, hbasis⟩ := hinv
  rw [List.getElem?_map, Option.map_eq_some_iff] at hf hg
  obtain ⟨p, hp, rfl⟩ := hf
  obtain ⟨q, hq, rfl⟩ := hg
  have hpmem := List.mem_of_getElem? hp
  have hqmem := List.mem_of_getElem? hq
  rcases join_truncated h hconfig hbasis.proper hpmem hqmem with
    hnone | ⟨r, hsome, hrn, hr0, hchopped, hirr⟩
  · exact .inl hnone
  · have hunit := hbasis.proper.isUnit_leadingCoeff (order.monomialOrder n h)
    have hadvances := advances_of_irreducible h hbasis.proper hp hq
      ⟨hunit _ (denote_mem_denotations hpmem), hunit _ (denote_mem_denotations hqmem)⟩ hrn hr0 hirr
    refine .inr ⟨element order r, hsome, hadvances, basis ++ [r], by simp, by simp, ?_⟩
    apply (hbasis.cons hrn hr0 hchopped).subset
    intro g hg
    simpa [or_comm] using hg

end Completion

section Settlement

open Settlement

/-- What reducing `g` modulo the others can make of it: the last element is never dropped, and one
that is replaced becomes lower. -/
private inductive TruncatedChange (n : ℕ) (order : Order) (tolerance : Option Tolerance)
    (others : List (Polynomial ℚ)) (g : Polynomial ℚ) : Change (Element ℚ) → Prop
  | kept : TruncatedChange n order tolerance others g .kept
  | dropped (hne : others ≠ []) : TruncatedChange n order tolerance others g .dropped
  | replaced {r : Polynomial ℚ} (hn : r.nvars = n) (hne : r.denote n ≠ 0)
      (hchopped : IsChopped tolerance (r.denote n))
      (hlower : Lower (Element.support order (element order r))
        (Element.support order (element order g))) :
    TruncatedChange n order tolerance others g (.replaced (element order r))

include h htol

private theorem reduceByOthers_truncated {others : List (Polynomial ℚ)} {g : Polynomial ℚ}
    (hothers : Proper n others) (hg : g.nvars = n)
    (hchopped : IsChopped tolerance (g.denote n)) :
    ∃ c, (reduceByOthers order tolerance (others.map (element order))
      (element order g)).result = .ok c ∧ TruncatedChange n order tolerance others g c := by
  obtain ⟨reducer, hr, hreducer⟩ := ofElements_tolerance h hothers tolerance
  obtain ⟨r₁, r, hr₁, hchop, hrn, hform⟩ :=
    truncatedForm_ok h htol hr (f := (element order g).polynomial) hg
  rw [reduceByOthers, Traced.result_lift_bind hreducer, Traced.result_bind hr₁,
    Traced.result_lift_bind hchop]
  by_cases hagrees : r.agrees (element order g).polynomial = true
  · rw [if_pos hagrees]
    exact ⟨.kept, rfl, .kept⟩
  · have hne : r.denote n ≠ g.denote n := fun heq => hagrees ((agrees_iff hrn hg).mpr heq)
    rw [if_neg hagrees]
    by_cases hzero : r.isZero = true
    · rw [if_pos hzero]
      refine ⟨.dropped, rfl, .dropped ?_⟩
      rintro rfl
      exact hne (hform.eq_of_empty hchopped denotations_nil)
    · rw [if_neg hzero]
      obtain ⟨d, hd, hd', habove⟩ := (hform.eq_or_lower hchopped).resolve_left hne
      refine ⟨.replaced (element order r), rfl, .replaced hrn ?_ hform.isChopped
        (descendsTo_of_lower h hg hrn hd hd' habove)⟩
      rwa [ne_eq, ← isZero_iff hrn]

private theorem reduceByOthers_split (hbasis : Truncated n tolerance basis)
    {before after : List (Element ℚ)} {e : Element ℚ}
    (heq : basis.map (element order) = before ++ e :: after) :
    ∃ before' g after', basis = before' ++ g :: after' ∧ before = before'.map (element order) ∧
      after = after'.map (element order) ∧
      ∃ c, (reduceByOthers order tolerance (before ++ after) e).result = .ok c ∧
        TruncatedChange n order tolerance (before' ++ after') g c := by
  obtain ⟨before', rest, rfl, rfl, hrest⟩ := List.map_eq_append_iff.mp heq
  obtain ⟨g, after', rfl, rfl, rfl⟩ := List.map_eq_cons_iff.mp hrest
  refine ⟨before', g, after', rfl, rfl, rfl, ?_⟩
  rw [← List.map_append]
  exact reduceByOthers_truncated h htol hbasis.others.proper (hbasis.proper.nvars_eq g (by simp))
    (hbasis.isChopped g (by simp))

/-- A change lowers the list, keeps it truncated and leaves something of it. -/
theorem truncatedElements_change {elements : List (Element ℚ)}
    (hinv : TruncatedElements n order tolerance elements) :
    next (reduceByOthers order tolerance) elements = .ok none ∨
      ∃ elements', next (reduceByOthers order tolerance) elements = .ok (some elements') ∧
        ShortLex Lower (elements'.map (Element.support order))
          (elements.map (Element.support order)) ∧
        TruncatedElements n order tolerance elements' := by
  obtain ⟨basis, rfl, hne, hbasis⟩ := hinv
  have hall : ∀ before e after, [] ++ basis.map (element order) = before ++ e :: after →
      ∃ c, (reduceByOthers order tolerance (before ++ after) e).result = .ok c := by
    intro before e after heq
    obtain ⟨-, -, -, -, -, -, c, hc, -⟩ := reduceByOthers_split h htol hbasis heq
    exact ⟨c, hc⟩
  refine (change?_changed hall).imp_right fun hchanged => ?_
  obtain ⟨elements', hnext, hchanged⟩ := hchanged
  refine ⟨elements', hnext, ?_⟩
  rw [List.nil_append] at hchanged
  cases hchanged with
  | @dropped before after e heq hresult =>
    obtain ⟨before', g, after', rfl, rfl, rfl, c, hc, hchange⟩ :=
      reduceByOthers_split h htol hbasis heq
    cases hc.symm.trans hresult
    cases hchange with
    | dropped hothers =>
      rw [heq]
      exact ⟨.inl (by simp), before' ++ after', by simp, hothers, hbasis.others⟩
  | @replaced before after e r heq hresult =>
    obtain ⟨before', g, after', rfl, rfl, rfl, c, hc, hchange⟩ :=
      reduceByOthers_split h htol hbasis heq
    cases hc.symm.trans hresult
    cases hchange with
    | @replaced r hn hr0 hchopped hlower =>
      refine ⟨?_, before' ++ r :: after', by simp, by simp, ?_⟩
      · simp only [List.map_append, List.map_cons]
        exact .inr ⟨by simp, List.Lex.append_left _ (.rel hlower) _⟩
      · apply (hbasis.others.cons hn hr0 hchopped).subset
        intro p hp
        simp only [List.mem_append, List.mem_cons] at hp ⊢
        tauto

end Settlement

end PolyIdeal
