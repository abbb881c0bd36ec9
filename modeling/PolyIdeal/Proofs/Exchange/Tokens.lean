import PolyIdeal.Proofs.Exchange.SparseRing
import PolyIdeal.Proofs.Value.Representation
import PolyIdeal.Value.Leading

/-!
# Exchange by token arrays

An array of tokens lists the terms of a polynomial from the highest monomial, and the polynomial can
be made of its rows again. Only monomials that the order cannot rank are refused. Neither here nor in
the exchange with sparse rings is anything of a polynomial lost.
-/

namespace PolyIdeal

open Monomial PolyIdeal.Polynomial

/-- Whether an array of tokens is that of a polynomial under an order: its rows hold a coefficient and
the exponents of a monomial, from the highest monomial, and make the polynomial again, in whatever way
it is then kept. -/
structure Tokenizes (order : Order) (p : AnyPolynomial) (array : Tokens Scalar) : Prop where
  columns_eq : array.columns = 1 + p.nvars
  length_eq : ∀ row ∈ array.rows, row.2.length = p.nvars
  descending : array.rows.Pairwise fun row row' => order.compare row.2 row'.2 = .gt
  rebuilt : ∀ q : Polynomial p.domain.Elem, q.nvars = p.nvars →
    ∃ r, q.fromTermsLike (array.rows.map fun row => (row.2.toInts, some row.1)) = .ok r ∧
      p.same ⟨p.domain, r⟩ = true

namespace AnyPolynomial

/-- Whether an order can rank the monomials of a polynomial; zero has none. -/
def RankedBy (order : Order) (p : AnyPolynomial) : Prop :=
  p.isZero = true ∨ order.accepts p.nvars = true

def tokenArray (order : Order) (p : AnyPolynomial) : Except Failure (Tokens Scalar) := do
  let array ← Tokens.ofPolynomial order p.polynomial
  return ⟨array.columns, array.rows.map fun (c, m) => (Coefficient.toScalar c, m)⟩

private theorem tokens_eq (order : Order) (ps : List AnyPolynomial) :
    tokens (.given order) ps = ps.mapM (tokenArray order) := rfl

section Array

variable {D : Domain} {p : Polynomial D.Elem} {order : Order}

private def descendingTerms (order : Order) (p : Polynomial D.Elem) : List (Monomial × D.Elem) :=
  (order.descending p.monomials).map fun m => (m, p.coefficient m)

private theorem descendingTerms_perm : (descendingTerms order p).Perm p.terms := by
  refine ((order.descending_perm p.monomials).map _).trans (List.Perm.of_eq ?_)
  rw [monomials, List.map_map]
  refine (List.map_congr_left fun t ht => ?_).trans p.terms.map_id
  exact Prod.ext rfl (mem_terms.mp ht).1

private theorem fromTermsLike_of_perm (hD : D ≠ .reals) {terms : List (Monomial × D.Elem)}
    (h : terms.Perm p.terms) {q : Polynomial D.Elem} (hq : q.nvars = p.nvars) :
    ∃ r, q.fromTermsLike
        (terms.map fun t => (t.1.toInts, some (Coefficient.toScalar t.2))) = .ok r ∧
      (⟨D, p⟩ : AnyPolynomial).same ⟨D, r⟩ = true := by
  have hl : ∀ t ∈ terms, t.1.length = q.nvars :=
    fun t ht => (length_of_mem_terms (h.subset ht)).trans hq.symm
  have hr : (q.ofTermsLike terms).nvars = p.nvars := (nvars_ofTermsLike q terms).trans hq
  refine ⟨_, fromTermsLike_eq (readAs_terms terms) hl, ?_⟩
  refine same_iff_coefficient.mpr ⟨hr.symm, fun m => ?_⟩
  by_cases hm : m.length = p.nvars
  · rw [coefficient_ofTermsLike_eq_addedAt q hl (hm.trans hq.symm),
      addedAt_of_perm (zero_add_of_ne_reals hD) h]
  · rw [coefficient_of_length_ne hm, coefficient_of_length_ne fun h => hm (h.trans hr)]

private theorem tokenArray_eq (h : RankedBy order ⟨D, p⟩) :
    tokenArray order ⟨D, p⟩ = .ok ⟨p.nvars + 1,
      (descendingTerms order p).map fun t => (Coefficient.toScalar t.2, t.1)⟩ := by
  have hcheck : (p.monomials.forM fun m => order.check m.toInts) = .ok () := by
    refine forM_ok fun m hm => ?_
    rcases h with hzero | haccepts
    · rw [monomials_eq_nil_iff.mpr hzero] at hm
      cases hm
    · exact Order.check_toInts haccepts (length_of_mem_monomials hm)
  rw [tokenArray, Tokens.ofPolynomial, hcheck, descendingTerms, List.map_map]
  show Except.ok (Tokens.mk _ (List.map _ (List.map _ _))) = _
  rw [List.map_map]
  rfl

theorem tokenArray_ok (hD : D ≠ .reals) (h : RankedBy order ⟨D, p⟩) :
    ∃ array, tokenArray order ⟨D, p⟩ = .ok array ∧ Tokenizes order ⟨D, p⟩ array := by
  have hperm : (descendingTerms order p).Perm p.terms := descendingTerms_perm
  refine ⟨_, tokenArray_eq h, ?_⟩
  constructor
  case columns_eq => exact Nat.add_comm _ _
  case length_eq =>
    rw [List.forall_mem_map]
    exact fun t ht => length_of_mem_terms (hperm.subset ht)
  case descending =>
    rw [List.pairwise_map, descendingTerms, List.pairwise_map]
    rcases h with hzero | haccepts
    · rw [monomials_eq_nil_iff.mpr hzero, Order.descending, List.mergeSort_nil]
      exact .nil
    · exact Order.descending_strict haccepts (fun m hm => length_of_mem_monomials hm)
        p.nodup_monomials
  case rebuilt =>
    intro q hq
    rw [List.map_map]
    exact fromTermsLike_of_perm hD hperm hq

theorem tokenArray_misfit (h : ¬ RankedBy order ⟨D, p⟩) :
    ∃ images m, tokenArray order ⟨D, p⟩ = .error (.invalid (.permutationMisfit images m)) := by
  obtain ⟨hzero, hmisfit⟩ := not_or.mp h
  have hne : p.monomials ≠ [] := fun hnil => hzero (monomials_eq_nil_iff.mp hnil)
  obtain ⟨m, ms, hms⟩ := List.exists_cons_of_ne_nil hne
  have hlength : m.length = p.nvars := length_of_mem_monomials (hms ▸ List.mem_cons_self)
  rw [AnyPolynomial.nvars, ← hlength] at hmisfit
  obtain ⟨images, hcheck⟩ := Order.check_misfit hmisfit
  have hchecks : (p.monomials.forM fun m => order.check m.toInts) =
      .error (.invalid (.permutationMisfit images m.toInts)) := by
    rw [hms]
    exact forM_error (l := []) (by simp) hcheck
  refine ⟨images, m.toInts, ?_⟩
  rw [tokenArray, Tokens.ofPolynomial, hchecks]
  rfl

end Array

section List

variable {order : Order} {ps : List AnyPolynomial}

theorem tokens_ok (hexact : ∀ p ∈ ps, p.domain ≠ .reals) (h : ∀ p ∈ ps, p.RankedBy order) :
    ∃ arrays, tokens (.given order) ps = .ok arrays ∧
      List.Forall₂ (Tokenizes order) ps arrays :=
  exists_mapM_forall₂ fun p hp => tokenArray_ok (hexact p hp) (h p hp)

theorem tokens_misfit (h : ¬ ∀ p ∈ ps, p.RankedBy order) :
    ∃ images m, tokens (.given order) ps = .error (.invalid (.permutationMisfit images m)) := by
  rw [tokens_eq]
  induction ps with
  | nil => exact absurd (by simp) h
  | cons p ps ih =>
    rw [List.mapM_cons]
    by_cases hp : p.RankedBy order
    · obtain ⟨images, m, hrest⟩ := ih fun hps => h (List.forall_mem_cons.mpr ⟨hp, hps⟩)
      refine ⟨images, m, ?_⟩
      rw [tokenArray_eq hp, hrest]
      rfl
    · obtain ⟨images, m, hfirst⟩ := tokenArray_misfit hp
      refine ⟨images, m, ?_⟩
      rw [hfirst]
      rfl

end List

end AnyPolynomial

/-- What becomes of polynomials under an order: each has its token array, unless there are monomials
that the order cannot rank. -/
structure TokenExchange (order : Order) (ps : List AnyPolynomial) : Prop where
  ranked : (∀ p ∈ ps, p.RankedBy order) →
    ∃ arrays, AnyPolynomial.tokens (.given order) ps = .ok arrays ∧
      List.Forall₂ (Tokenizes order) ps arrays
  misfit : (¬ ∀ p ∈ ps, p.RankedBy order) →
    ∃ images m, AnyPolynomial.tokens (.given order) ps =
      .error (.invalid (.permutationMisfit images m))

/-- The exchange with a ring in at least one generator loses nothing, and neither do the token arrays of
polynomials over exact domains. -/
theorem exchange_lossless {R : Type} [CommRing R] [DecidableEq R] [Coefficient R]
    [FaithfulCoefficient R] {ring : SparseRing} (hpos : 0 < ring.generators)
    {order : Order} {ps : List AnyPolynomial} (hexact : ∀ p ∈ ps, p.domain ≠ .reals) :
    ring.Exchanges R ∧ TokenExchange order ps :=
  ⟨SparseRing.exchanges hpos,
    { ranked := AnyPolynomial.tokens_ok hexact
      misfit := AnyPolynomial.tokens_misfit }⟩

theorem exchange_lossless_residues :
    SparseRing.Exchanges (Residue 4) ⟨.residues 4, 2, .degLex⟩ ∧
      TokenExchange (.permuted ⟨[1, 0], by decide⟩)
        [⟨.integers, .univariate (.ofCoefficients [])⟩,
          ⟨.residues 4, .multinomial (.ofTerms 2 Nat.two_pos [([1, 3], .ofNat 4 2)])⟩] :=
  exchange_lossless (by decide) (by simp)

/-- An order that arranges two variables does not rank the powers of one. -/
theorem not_tokens_misfit : ¬ ∀ (order : Order) (ps : List AnyPolynomial),
    (∀ p ∈ ps, p.domain ≠ .reals) →
      ∃ arrays, AnyPolynomial.tokens (.given order) ps = .ok arrays ∧
        List.Forall₂ (Tokenizes order) ps arrays := by
  intro hall
  obtain ⟨arrays, harrays, -⟩ := hall (.permuted ⟨[1, 0], by decide⟩)
    [⟨.integers, .univariate (.ofCoefficients [0, 1])⟩] (by simp)
  cases harrays

end PolyIdeal
