import PolyIdeal.Proofs.Basis.Reduced

/-!
# Elimination

In the lexicographic order the monomials without the first variables lie below all others. So those
elements of a Groebner basis in which these variables do not occur decide membership of the
polynomials in which they do not.
-/

namespace PolyIdeal

open Monomial MonomialOrder PolyIdeal.Polynomial Reducer

section LowerSet

variable {σ R : Type} [CommRing R] {m : MonomialOrder σ} {G : Set (MvPolynomial σ R)}
  {s : Set m.syn} {f r : MvPolynomial σ R}

/-- All monomials that occur lie in a set. -/
private def SupportedIn (s : Set m.syn) (f : MvPolynomial σ R) : Prop :=
  ∀ e ∈ f.support, m.toSyn e ∈ s

private theorem supportedIn_of_degree (hs : IsLowerSet s) (hf : m.toSyn (m.degree f) ∈ s) :
    SupportedIn s f :=
  fun _ he => hs (m.le_degree he) hf

private theorem IsGroebner.exists_supportedIn (hG : IsGroebner m G) (hs : IsLowerSet s)
    (hf : f ∈ Ideal.span G) (hne : f ≠ 0) (hfs : SupportedIn s f) :
    ∃ g ∈ {g ∈ G | SupportedIn s g}, m.degree g ≤ m.degree f := by
  obtain ⟨g, hg, hle⟩ := hG f hf hne
  have hlead : m.toSyn (m.degree f) ∈ s := hfs _ (m.degree_mem_support hne)
  exact ⟨g, ⟨hg, supportedIn_of_degree hs (hs (m.toSyn_monotone hle) hlead)⟩, hle⟩

/-- Modulo the elements of a Groebner basis in a lower set, of the polynomials there exactly the
members of the whole ideal have the normal form zero. -/
private theorem IsNormalForm.eq_zero_iff_mem_ideal
    (h : IsNormalForm m {g ∈ G | SupportedIn s g} f r) (hG : IsGroebner m G)
    (hunit : ∀ g ∈ G, IsUnit (m.leadingCoeff g)) (hs : IsLowerSet s)
    (hfs : SupportedIn s f) : r = 0 ↔ f ∈ Ideal.span G := by
  have hsub : f - r ∈ Ideal.span G := Ideal.span_mono (Set.sep_subset _ _) h.sub_mem_ideal
  constructor
  · rintro rfl
    rwa [sub_zero] at hsub
  · intro hf
    by_contra hne
    have hr : r ∈ Ideal.span G := by
      rw [← sub_sub_cancel f r]
      exact Ideal.sub_mem _ hf hsub
    have hrs : SupportedIn s r := fun _ he => h.toSyn_mem hs hfs he
    obtain ⟨g, hg, hle⟩ := hG.exists_supportedIn hs hr hne hrs
    exact h.irreducible _ (m.degree_mem_support hne) ⟨g, hg, hle, (hunit g hg.1).dvd⟩

end LowerSet

section FirstVariables

/-- Whether none of the first `k` variables occurs in a monomial. -/
def Monomial.avoidsFirst (k : ℕ) (m : Monomial) : Bool :=
  (m.take k).all (· == 0)

private theorem Monomial.avoidsFirst_of_not_lt {k : ℕ} {m₁ m₂ : Monomial}
    (hlen : m₁.length = m₂.length) (hle : ¬ m₂ < m₁) (h : m₂.avoidsFirst k = true) :
    m₁.avoidsFirst k = true := by
  induction m₁ generalizing k m₂ with
  | nil => simp [avoidsFirst]
  | cons a m₁ ih =>
    cases k with
    | zero => rfl
    | succ k =>
      cases m₂ with
      | nil => simp at hlen
      | cons b m₂ =>
        simp only [avoidsFirst, List.take_succ_cons, List.all_cons, Bool.and_eq_true,
          beq_iff_eq] at h ih ⊢
        obtain ⟨rfl, htail⟩ := h
        rw [List.cons_lt_cons_iff, not_or, not_and] at hle
        obtain rfl : a = 0 := Nat.eq_zero_of_not_pos hle.1
        exact ⟨rfl, ih (by simpa using hlen) (hle.2 rfl) htail⟩

variable {n : ℕ}

private def avoidingFirst (n k : ℕ) : Set (Order.lex.monomialOrder n rfl).syn :=
  {x | (ofExponents ((Order.lex.monomialOrder n rfl).toSyn.symm x)).avoidsFirst k = true}

private theorem isLowerSet_avoidingFirst (n k : ℕ) : IsLowerSet (avoidingFirst n k) := by
  intro x y hyx hx
  have hnot : ¬ ofExponents ((Order.lex.monomialOrder n rfl).toSyn.symm x) <
      ofExponents ((Order.lex.monomialOrder n rfl).toSyn.symm y) := not_lt.mpr hyx
  exact Monomial.avoidsFirst_of_not_lt (by simp) hnot hx

variable {R : Type} [CommRing R] [DecidableEq R]

def Polynomial.avoidsFirst (k : ℕ) (p : Polynomial R) : Bool :=
  p.monomials.all (Monomial.avoidsFirst k)

private theorem Polynomial.avoidsFirst_iff {k : ℕ} {p : Polynomial R} (hp : p.nvars = n) :
    p.avoidsFirst k = true ↔ SupportedIn (avoidingFirst n k) (p.denote n) := by
  rw [Polynomial.avoidsFirst, List.all_eq_true]
  constructor
  · intro h e he
    exact h _ ((mem_monomials_iff hp).mpr he)
  · intro h m hm
    obtain ⟨e, rfl⟩ := exists_ofExponents ((length_of_mem_monomials hm).trans hp)
    exact h e ((mem_monomials_iff hp).mp hm)

private theorem denotations_filter_avoidsFirst {k : ℕ} {basis : List (Polynomial R)}
    (hn : ∀ g ∈ basis, g.nvars = n) :
    denotations n (basis.filter (Polynomial.avoidsFirst k)) =
      {G ∈ denotations n basis | SupportedIn (avoidingFirst n k) G} := by
  ext G
  constructor
  · rintro ⟨g, hg, rfl⟩
    obtain ⟨hmem, havoids⟩ := List.mem_filter.mp hg
    exact ⟨denote_mem_denotations hmem, (Polynomial.avoidsFirst_iff (hn g hmem)).mp havoids⟩
  · rintro ⟨⟨g, hg, rfl⟩, hG⟩
    apply denote_mem_denotations
    exact List.mem_filter.mpr ⟨hg, (Polynomial.avoidsFirst_iff (hn g hg)).mpr hG⟩

end FirstVariables

variable {R : Type} [CommRing R] [DecidableEq R] [Coefficient R] [FieldCoefficient R] {n : ℕ}
  {generators : List (Polynomial R)}

/-- The elements of the lexicographic basis without the first variables decide which polynomials
without them lie in the ideal of the generators. -/
theorem groebnerBasis_elimination {config : Config} (hn : ∀ g ∈ generators, g.nvars = n)
    (htol : config.tolerance = none) :
    ∃ basis, (groebnerBasis generators .lex config).result = .ok basis ∧
      ∀ (k : ℕ) (f : Polynomial R), f.nvars = n → f.avoidsFirst k = true →
        ∃ r, (reduce f (basis.filter (Polynomial.avoidsFirst k)) .lex none).result = .ok r ∧
          (r.isZero = true ↔ f.denote n ∈ Ideal.span (denotations n generators)) := by
  have h : Order.lex.accepts n = true := rfl
  obtain ⟨basis, hresult, hbasis⟩ := groebnerBasis_ok h hn htol
  refine ⟨basis, hresult, fun k f hf havoids => ?_⟩
  have hproper := hbasis.proper
  obtain ⟨reducer, hok, hr⟩ :=
    ofBasis_ok h (hproper.subset (List.filter_sublist (p := Polynomial.avoidsFirst k)).subset)
  obtain ⟨r, hnormal, hrn, hnf⟩ := normalForm_spec h hr hf
  refine ⟨r, ?_, ?_⟩
  · rw [reduce, hok]
    exact hnormal
  · rw [denotations_filter_avoidsFirst hproper.nvars_eq] at hnf
    rw [isZero_iff hrn, ← hbasis.span_eq]
    exact hnf.eq_zero_iff_mem_ideal hbasis.isGroebner
      (hproper.isUnit_leadingCoeff _) (isLowerSet_avoidingFirst n k)
      ((Polynomial.avoidsFirst_iff hf).mp havoids)

theorem groebnerBasis_elimination_hyperbolaAndLine :
    ∃ basis, (groebnerBasis hyperbolaAndLine .lex {}).result = .ok basis ∧
      ∀ (k : ℕ) (f : Polynomial (Residue 3)), f.nvars = 2 → f.avoidsFirst k = true →
        ∃ r, (reduce f (basis.filter (Polynomial.avoidsFirst k)) .lex none).result = .ok r ∧
          (r.isZero = true ↔ f.denote 2 ∈ Ideal.span (denotations 2 hyperbolaAndLine)) :=
  groebnerBasis_elimination nvars_hyperbolaAndLine rfl

end PolyIdeal
