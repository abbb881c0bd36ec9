import PolyIdeal.Proofs.Builder.Iteration
import PolyIdeal.Proofs.Builder.Replay

/-!
# Requests that fail

A request checks its arguments before it changes the builder, and leaves it as it is if it fails. Only
the terms of a polynomial are converted one after the other while they are added: if one of them has
no counterpart, those in front of it stay.
-/

namespace PolyIdeal.Builder

section Failures

variable {R : Type} [Zero R] [DecidableEq R] [Add R] [Coefficient R] {b : Builder R}
  {terms : List (Monomial × Scalar)} {e : Failure}

private theorem generation_addTerms (h : (b.addTerms terms).2 = .ok ()) :
    (b.addTerms terms).1.generation = b.generation + terms.length := by
  induction terms generalizing b with
  | nil => rfl
  | cons t terms ih =>
    rw [addTerms] at h ⊢
    split at h
    · cases h
    · rename_i c _
      rw [ih h, List.length_cons, Nat.add_comm terms.length 1, ← Nat.add_assoc]
      rfl

private theorem addTerms_of_error (h : (b.addTerms terms).2 = .error e) :
    e = .noConversion ∧ ∃ before t after, terms = before ++ t :: after ∧
      Coefficient.ofScalar? (R := R) t.2 = none ∧
      b.addTerms before = ((b.addTerms terms).1, .ok ()) := by
  induction terms generalizing b with
  | nil => cases h
  | cons t terms ih =>
    cases hc : Coefficient.ofScalar? (R := R) t.2 with
    | none =>
      rw [addTerms, hc] at h ⊢
      exact ⟨(Except.error.inj h).symm, [], t, terms, rfl, hc, rfl⟩
    | some c =>
      have hstep (rest : List (Monomial × Scalar)) :
          b.addTerms (t :: rest) = (b.increase t.1 c).addTerms rest := by
        rw [addTerms, hc]
      rw [hstep] at h ⊢
      obtain ⟨he, before, s, after, rfl, hs, hbefore⟩ := ih h
      exact ⟨he, t :: before, s, after, rfl, hs, (hstep before).trans hbefore⟩

/-- A request that fails leaves the builder as it is, unless it adds terms of which one has no
counterpart and others are in front of it. These have been added then, each in a generation of its
own. -/
theorem apply_of_error {r : Request} (h : (b.apply r).2 = .error e) :
    (b.apply r).1 = b ∨
      ∃ before t after, r = .add b.nvars (before ++ t :: after) ∧ before ≠ [] ∧
        Coefficient.ofScalar? (R := R) t.2 = none ∧ e = .noConversion ∧
        b.apply (.add b.nvars before) = ((b.apply r).1, .ok ()) ∧
        (b.apply r).1.generation = b.generation + before.length := by
  cases r with
  | set exponents v => exact .inl (apply_eq_self (congrArg Except.isOk h))
  | addTerm exponents v => exact .inl (apply_eq_self (congrArg Except.isOk h))
  | remove exponents => exact .inl (apply_eq_self (congrArg Except.isOk h))
  | add nvars terms =>
    by_cases hn : nvars = b.nvars
    · subst hn
      have happly (terms : List (Monomial × Scalar)) :
          b.apply (.add b.nvars terms) = b.addTerms terms := if_pos rfl
      rw [happly] at h ⊢
      obtain ⟨he, before, t, after, rfl, ht, hbefore⟩ := addTerms_of_error h
      by_cases hnil : before = []
      · subst hnil
        exact .inl (congrArg Prod.fst hbefore).symm
      · have hgeneration := generation_addTerms (congrArg Prod.snd hbefore)
        rw [hbefore] at hgeneration
        exact .inr ⟨before, t, after, rfl, hnil, ht, he, (happly before).trans hbefore, hgeneration⟩
    · rw [apply, if_neg hn]
      exact .inl rfl

end Failures

def halfVariable : AnyPolynomial :=
  ⟨.rationals, .univariate (.ofCoefficients [1, ⟨1, 2, by decide, by decide⟩])⟩

/-- The request to add it to an empty builder. -/
def addHalfVariable (D : Domain) : Builder D.Elem × Except Failure Unit :=
  ({ nvars := 1 } : Builder D.Elem).apply (AnyBuilder.addition halfVariable)

theorem apply_of_error_halfVariable :
    (addHalfVariable .integers).2 = .error .noConversion ∧
      (addHalfVariable .integers).1 =
        { nvars := 1, terms := [([0], (1 : ℤ))], generation := 1 } ∧
      ∃ before t after, AnyBuilder.addition halfVariable = .add 1 (before ++ t :: after) ∧
        before ≠ [] ∧ Coefficient.ofScalar? (R := ℤ) t.2 = none := by
  have herror : (addHalfVariable .integers).2 = .error .noConversion := by rfl
  have hleft : (addHalfVariable .integers).1 =
      { nvars := 1, terms := [([0], (1 : ℤ))], generation := 1 } := by rfl
  refine ⟨herror, hleft, ?_⟩
  rcases apply_of_error (R := ℤ) herror with hsame | ⟨before, t, after, hr, hne, ht, -⟩
  · exact absurd (congrArg generation (hleft.symm.trans hsame)) Nat.one_ne_zero
  · exact ⟨before, t, after, hr, hne, ht⟩

/-- What builders are said to do: in every state that requests have led to, failed ones included, a
request that fails changes nothing. -/
def IsAtomic (D : Domain) : Prop :=
  ∀ (nvars : ℤ) (b₀ b : Builder D.Elem) (requests : List Request) (r : Request) (e : Failure),
    create nvars = .ok b₀ → (∀ r' ∈ requests, r'.IsCall) →
    b = requests.foldl (fun b r => (b.apply r).1) b₀ → r.IsCall →
    (b.apply r).2 = .error e → (b.apply r).1 = b

/-- Over the integers, the first term of `1 + 1/2 * X` stays when the second one fails. -/
theorem not_isAtomic : ¬ IsAtomic .integers := by
  intro h
  have hsame := h 1 { nvars := 1 } { nvars := 1 } [] (AnyBuilder.addition halfVariable)
    .noConversion rfl (by simp) rfl ⟨halfVariable, rfl⟩ rfl
  exact absurd (congrArg generation hsame) Nat.one_ne_zero

end PolyIdeal.Builder
