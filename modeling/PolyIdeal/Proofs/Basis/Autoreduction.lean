import PolyIdeal.Proofs.Basis.Buchberger
import PolyIdeal.Proofs.Basis.Settlement
import PolyIdeal.Proofs.Order.Descending

/-!
# Autoreduction

An element that changes becomes lower or is dropped, and either way the ideal stays and what is left
is still a Groebner basis. So the changes come to an end, and then no element can be reduced by the
others.
-/

namespace PolyIdeal

open Monomial MonomialOrder PolyIdeal.Polynomial Reducer Settlement

variable {R : Type} [CommRing R] [DecidableEq R] [Coefficient R] {n : ℕ} {order : Order}
  (h : order.accepts n = true) {g : Polynomial R} (hg : g.nvars = n)

/-- The polynomial of the normal form of `g` modulo the others, where it is not `g` itself. -/
def Lowers (others : List (Polynomial R)) (g r : Polynomial R) : Prop :=
  r.nvars = n ∧ r.denote n ≠ g.denote n ∧
    IsNormalForm (order.monomialOrder n h) (denotations n others) (g.denote n) (r.denote n)

/-- What reducing `g` modulo the others has to make of it. -/
inductive Reduces (others : List (Polynomial R)) (g : Polynomial R) : Change (Element R) → Prop
  | kept (hirr : Irreducible (order.monomialOrder n h) (denotations n others) (g.denote n)) :
    Reduces others g .kept
  | dropped (hnf : IsNormalForm (order.monomialOrder n h) (denotations n others) (g.denote n) 0) :
    Reduces others g .dropped
  | replaced {r : Polynomial R} (hlowers : Lowers h others g r) (hne : r.denote n ≠ 0) :
    Reduces others g (.replaced (element order r))

include hg in
theorem reduceByOthers_spec [ExactCoefficient R] {others : List (Polynomial R)}
    (hothers : Proper n others) :
    ∃ c, (reduceByOthers order none (others.map (element order)) (element order g)).result =
      .ok c ∧ Reduces h others g c := by
  obtain ⟨reducer, hreducer, hover⟩ := ofElements_ok h hothers
  obtain ⟨r, hr, hrn, hnf⟩ := normalForm_spec h hover (f := (element order g).polynomial) hg
  rw [reduceByOthers, Traced.result_lift_bind hreducer, Traced.result_bind hr,
    Traced.result_lift_bind (chop_none r)]
  by_cases hagrees : r.agrees (element order g).polynomial = true
  · have heq := (agrees_iff hrn hg).mp hagrees
    rw [if_pos hagrees]
    exact ⟨.kept, rfl, .kept (heq ▸ hnf.irreducible)⟩
  · have hne : r.denote n ≠ g.denote n := fun heq => hagrees ((agrees_iff hrn hg).mpr heq)
    rw [if_neg hagrees]
    by_cases hzero : r.isZero = true
    · rw [if_pos hzero]
      rw [(isZero_iff hrn).mp hzero] at hnf
      exact ⟨.dropped, rfl, .dropped hnf⟩
    · have hr0 : r.denote n ≠ 0 := fun heq => hzero ((isZero_iff hrn).mpr heq)
      rw [if_neg hzero]
      exact ⟨.replaced (element order r), rfl, .replaced ⟨hrn, hne, hnf⟩ hr0⟩

section Kept

variable {f g : Polynomial R} {r : Reducer R}

theorem result_reduceByOthers_kept (ms : List Monomial) {others : List (Element R)}
    (hr : ofElements order none others = .ok r) (hcheck : r.check f = .ok ())
    (hms : r.order.descending f.monomials = ms) (hnone : r.cancelFirst? f ms = .ok none)
    (hagrees : f.agrees f = true) :
    (reduceByOthers order none others (element order f)).result = .ok .kept := by
  have hnormal : (r.normalForm (element order f).polynomial).result = .ok f :=
    result_normalForm_none hcheck hms hnone
  rw [reduceByOthers, Traced.result_lift_bind hr, Traced.result_bind hnormal,
    Traced.result_lift_bind (chop_none f)]
  exact congrArg Traced.result (if_pos hagrees)

theorem result_autoreduce_singleton
    (hf : (reduceByOthers order none [] (element order f)).result = .ok .kept) :
    (autoreduce [f] order none).result = .ok [f] := by
  rw [autoreduce, List.map_singleton, Traced.result_bind (result_settle_none ?_)]
  · rfl
  · rw [result_change?_kept hf]
    rfl

theorem result_autoreduce_pair
    (hf : (reduceByOthers order none [element order g] (element order f)).result = .ok .kept)
    (hg : (reduceByOthers order none [element order f] (element order g)).result = .ok .kept) :
    (autoreduce [f, g] order none).result = .ok [f, g] := by
  rw [autoreduce, List.map_cons, List.map_singleton, Traced.result_bind (result_settle_none ?_)]
  · rfl
  · rw [result_change?_kept hf, result_change?_kept hg]
    rfl

end Kept

/-- The first `k` elements cannot be reduced by the others. -/
private def AutoreducedUpTo (k : ℕ) (basis : List (Polynomial R)) : Prop :=
  ∀ before g after, basis = before ++ g :: after → before.length < k →
    Irreducible (order.monomialOrder n h) (denotations n (before ++ after)) (g.denote n)

/-- No element can be reduced by the others. -/
def Autoreduced (basis : List (Polynomial R)) : Prop :=
  ∀ before g after, basis = before ++ g :: after →
    Irreducible (order.monomialOrder n h) (denotations n (before ++ after)) (g.denote n)

omit [Coefficient R] in
private theorem AutoreducedUpTo.succ {before after : List (Polynomial R)}
    (hdone : AutoreducedUpTo h before.length (before ++ g :: after))
    (hirr : Irreducible (order.monomialOrder n h) (denotations n (before ++ after))
      (g.denote n)) :
    AutoreducedUpTo h (before.length + 1) (before ++ g :: after) := by
  intro before' g' after' heq hlt
  rcases Nat.lt_or_ge before'.length before.length with hlt' | hge
  · exact hdone before' g' after' heq hlt'
  · have hlen : before.length = before'.length := by omega
    obtain ⟨rfl, htail⟩ := List.append_inj heq hlen
    obtain ⟨rfl, rfl⟩ := List.cons.inj htail
    exact hirr

omit [Coefficient R] in
private theorem AutoreducedUpTo.autoreduced {basis : List (Polynomial R)}
    (hdone : AutoreducedUpTo h basis.length basis) : Autoreduced h basis := by
  intro before g after heq
  apply hdone before g after heq
  rw [heq, List.length_append, List.length_cons]
  omega

/-- What changing a list once has to give: nothing if no element can be reduced by the others, and
otherwise the list without or with another element in one place. -/
private inductive Changes (basis : List (Polynomial R)) : Option (List (Element R)) → Prop
  | none (hauto : Autoreduced h basis) : Changes basis none
  | dropped {before after : List (Polynomial R)} {g : Polynomial R}
      (hbasis : basis = before ++ g :: after)
      (hnf : IsNormalForm (order.monomialOrder n h) (denotations n (before ++ after))
        (g.denote n) 0) :
    Changes basis (some ((before ++ after).map (element order)))
  | replaced {before after : List (Polynomial R)} {g r : Polynomial R}
      (hbasis : basis = before ++ g :: after) (hlowers : Lowers h (before ++ after) g r)
      (hne : r.denote n ≠ 0) :
    Changes basis (some ((before ++ r :: after).map (element order)))

private theorem change?_spec [ExactCoefficient R] {before after : List (Polynomial R)}
    (hbasis : Proper n (before ++ after))
    (hdone : AutoreducedUpTo h before.length (before ++ after)) :
    ∃ c, (change? (reduceByOthers order none) (before.map (element order))
      (after.map (element order))).result = .ok c ∧ Changes h (before ++ after) c := by
  induction after generalizing before with
  | nil =>
    rw [List.append_nil] at hdone ⊢
    exact ⟨none, rfl, .none hdone.autoreduced⟩
  | cons g after ih =>
    have hg : g.nvars = n := hbasis.nvars_eq g (by simp)
    obtain ⟨c, hc, hreduces⟩ := reduceByOthers_spec h hg hbasis.others
    rw [List.map_append] at hc
    rw [List.map_cons]
    cases hreduces with
    | kept hirr =>
      have hnext := hdone.succ h hirr
      have heq : before ++ g :: after = (before ++ [g]) ++ after := by simp
      rw [result_change?_kept hc]
      rw [heq] at hbasis hnext ⊢
      have htail := ih hbasis (by simpa using hnext)
      rwa [List.map_append] at htail
    | dropped hnf =>
      refine ⟨_, result_change?_dropped hc, ?_⟩
      rw [← List.map_append]
      exact .dropped rfl hnf
    | replaced hlowers hne =>
      refine ⟨_, result_change?_replaced hc, ?_⟩
      rw [← List.map_cons, ← List.map_append]
      exact .replaced rfl hlowers hne

private theorem change?_start_spec [ExactCoefficient R] {basis : List (Polynomial R)}
    (hbasis : Proper n basis) :
    ∃ c, (change? (reduceByOthers order none) [] (basis.map (element order))).result = .ok c ∧
      Changes h basis c := by
  have hstart : AutoreducedUpTo h ([] : List (Polynomial R)).length ([] ++ basis) := by
    intro before g after _ hlt
    exact absurd hlt (Nat.not_lt_zero _)
  have hproper : Proper n ([] ++ basis) := hbasis
  exact change?_spec h hproper hstart

omit [Coefficient R] in
private theorem lower_support {others : List (Polynomial R)} {r : Polynomial R} (hg : g.nvars = n)
    (hlowers : Lowers h others g r) :
    Lower (Element.support order (element order r)) (Element.support order (element order g)) := by
  obtain ⟨hrn, hne, hnf⟩ := hlowers
  obtain ⟨d, hd, hd', habove⟩ := hnf.eq_or_lower.resolve_left hne
  exact descendsTo_of_lower h hg hrn hd hd' habove

section Run

variable {Q : Set (MvPolynomial (Fin n) R) → Prop}

/-- What autoreduction keeps: the elements generate the ideal, and have whatever is kept when an
element is replaced by its normal form. -/
def AutoreductionInvariant (n : ℕ) (order : Order) (Q : Set (MvPolynomial (Fin n) R) → Prop)
    (I : Ideal (MvPolynomial (Fin n) R)) (elements : List (Element R)) : Prop :=
  ∃ basis : List (Polynomial R), elements = basis.map (element order) ∧ Proper n basis ∧
    Ideal.span (denotations n basis) = I ∧ Q (denotations n basis)

variable [ExactCoefficient R] (hQ : KeptByReduction (order.monomialOrder n h) Q)
include hQ

theorem autoreductionInvariant_step {I : Ideal (MvPolynomial (Fin n) R)}
    {elements : List (Element R)} (hinv : AutoreductionInvariant n order Q I elements) :
    (change? (reduceByOthers order none) [] elements).result = .ok none ∨
      ∃ elements', (change? (reduceByOthers order none) [] elements).result =
          .ok (some elements') ∧
        ShortLex Lower (elements'.map (Element.support order))
          (elements.map (Element.support order)) ∧
        AutoreductionInvariant n order Q I elements' := by
  obtain ⟨basis, rfl, hbasis, hspan, hkept⟩ := hinv
  obtain ⟨c, hc, hchanges⟩ := change?_start_spec h hbasis
  cases hchanges with
  | none => exact .inl hc
  | @dropped before after g hsplit hnf =>
    subst hsplit
    rw [denotations_middle] at hspan hkept
    have hspan' := hnf.span_insert
    rw [Ideal.span_insert_zero] at hspan'
    refine .inr ⟨_, hc, .inl ?_, before ++ after, rfl, ?_, hspan'.trans hspan,
      hQ.drop hnf (hbasis.denote_ne_zero g (by simp)) hkept⟩
    · simp only [List.length_map, List.length_append, List.length_cons]
      omega
    · exact hbasis.others
  | @replaced before after g r hsplit hlowers hne =>
    subst hsplit
    have hg : g.nvars = n := hbasis.nvars_eq g (by simp)
    have hnf := hlowers.2.2
    rw [denotations_middle] at hspan hkept
    refine .inr ⟨_, hc, .inr ⟨by simp, ?_⟩, before ++ r :: after, rfl, ?_, ?_, ?_⟩
    · simp only [List.map_append, List.map_cons]
      exact List.Lex.append_left _ (.rel (lower_support h hg hlowers)) _
    · apply (hbasis.others.append (Proper.singleton hlowers.1 hne)).subset
      intro p hp
      simp only [List.mem_append, List.mem_cons] at hp ⊢
      tauto
    · rw [denotations_middle, hnf.span_insert, hspan]
    · rw [denotations_middle]
      exact hQ.replace hnf (hbasis.denote_ne_zero g (by simp)) hne hkept

/-- Autoreduction makes of a list one that generates the same ideal and in which no element can be
reduced by the others. The loop of its changes comes to an end. -/
theorem autoreduce_spec {basis : List (Polynomial R)} (hbasis : Proper n basis)
    (hkept : Q (denotations n basis)) :
    ∃ settled, Loop (next (reduceByOthers order none)) (basis.map (element order))
        (.ok (settled.map (element order))) ∧
      (autoreduce basis order none).result = .ok settled ∧ Proper n settled ∧
      Ideal.span (denotations n settled) = Ideal.span (denotations n basis) ∧
      Q (denotations n settled) ∧ Autoreduced h settled := by
  have hstart : AutoreductionInvariant n order Q (Ideal.span (denotations n basis))
      (basis.map (element order)) := ⟨basis, rfl, hbasis, rfl, hkept⟩
  obtain ⟨_, hloop, hsettle, ⟨settled, rfl, hproper, hspan, hkept'⟩, hnone⟩ :=
    loop_settle_ends (fun _ hinv => autoreductionInvariant_step h hQ hinv) hstart
  refine ⟨settled, hloop, ?_, hproper, hspan, hkept', ?_⟩
  · rw [autoreduce, Traced.result_bind hsettle]
    exact congrArg Except.ok (Buchberger.map_polynomial_element settled)
  · obtain ⟨c, hc, hchanges⟩ := change?_start_spec h hproper
    obtain rfl := Except.ok.inj (hc.symm.trans hnone)
    cases hchanges with
    | none hauto => exact hauto

end Run

theorem length_autoreduce_le {basis settled : List (Polynomial R)} {tolerance : Option Tolerance}
    (hresult : (autoreduce basis order tolerance).result = .ok settled) :
    settled.length ≤ basis.length := by
  rw [autoreduce] at hresult
  obtain ⟨elements, helements, hsettled⟩ := Traced.exists_of_result_bind hresult
  cases hsettled
  have hle := length_settle_le helements
  rwa [List.length_map] at hle ⊢

end PolyIdeal
