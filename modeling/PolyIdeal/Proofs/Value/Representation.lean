import PolyIdeal.Proofs.Polynomial.Conversion
import PolyIdeal.Proofs.Polynomial.Storage
import PolyIdeal.Proofs.Value.OneDomain
import PolyIdeal.Value.NestedList

/-!
# Canonical representation

A polynomial over a domain is known by what is stored for it. It comes from every list of
coefficients that may end in zeros, from every array that may be larger than needed, and from all
terms with the same sums, however often their monomials are repeated and whatever is cancelled.
-/

namespace PolyIdeal

section Operands

variable {R : Type} [Coefficient R]

/-- Whether operands stand for coefficients, each for the one at its place. -/
def StandFor (given : List (Option Scalar)) (cs : List R) : Prop :=
  given.mapM (·.bind Coefficient.ofScalar?) = some cs

/-- Whether terms from outside are some terms: they have their exponents and stand for their
coefficients. -/
structure ReadAs (given : List RawTerm) (terms : List (Monomial × R)) : Prop where
  exponents : given.map Prod.fst = terms.map fun t => t.1.toInts
  coefficients : StandFor (given.map Prod.snd) (terms.map Prod.snd)

def operands (cs : List R) : List (Option Scalar) :=
  cs.map fun c => some (Coefficient.toScalar c)

private theorem convertAll_ok {given : List (Option Scalar)} {cs : List R} (h : StandFor given cs)
    (failure : Failure) : convertAll given failure = .ok cs := by
  rw [convertAll, h]

private theorem mapM_ofOperand?_ok {given : List (Option Scalar)} {cs : List R}
    (h : StandFor given cs) : given.mapM Coefficient.ofOperand? = .ok cs := by
  induction given generalizing cs with
  | nil =>
    obtain rfl := Option.some.inj h
    rfl
  | cons v given ih =>
    rw [StandFor, List.mapM_cons] at h
    obtain ⟨c, hc, h⟩ := Option.bind_eq_some_iff.mp h
    obtain ⟨cs', hcs', h⟩ := Option.bind_eq_some_iff.mp h
    obtain rfl := Option.some.inj h
    rw [List.mapM_cons, Coefficient.ofOperand?, hc, ih hcs']
    rfl

section ReadAs

variable {given : List RawTerm} {terms : List (Monomial × R)} (h : ReadAs given terms)
include h

private theorem ReadAs.exists_monomial {g : RawTerm} (hg : g ∈ given) :
    ∃ t ∈ terms, t.1.toInts = g.1 := by
  have hmem := List.mem_map_of_mem (f := Prod.fst) hg
  rw [h.exponents] at hmem
  exact List.mem_map.mp hmem

private theorem ReadAs.ofInts?_eq :
    ∀ g ∈ given, Monomial.ofInts? g.1 = .ok (g.1.map Int.toNat) := by
  intro g hg
  obtain ⟨t, -, ht⟩ := h.exists_monomial hg
  rw [← ht, Monomial.ofInts?_toInts]
  simp [Monomial.toInts, Function.comp_def]

private theorem ReadAs.length_eq {n : ℕ} (hl : ∀ t ∈ terms, t.1.length = n) :
    ∀ g ∈ given, g.1.length = n := by
  intro g hg
  obtain ⟨t, ht, heq⟩ := h.exists_monomial hg
  rw [← heq, Monomial.length_toInts, hl t ht]

private theorem ReadAs.map_toNat {α : Type} (f : Monomial → α) :
    (given.map fun g => f (g.1.map Int.toNat)) = terms.map fun t => f t.1 := by
  have hmap := congrArg (List.map fun exponents => f (exponents.map Int.toNat)) h.exponents
  rw [List.map_map, List.map_map] at hmap
  refine hmap.trans (List.map_congr_left fun t _ => ?_)
  simp [Monomial.toInts, Function.comp_def]

end ReadAs

end Operands

section Arrays

variable {R : Type} [Zero R] [DecidableEq R] [Coefficient R]

/-- The polynomial of an array of coefficients, which is known by its shape and its entries. -/
def Multinomial.ofArray (shape : List ℕ) (entries : List (Option Scalar)) :
    Except Failure (Multinomial R) :=
  if h : shape = [] then .error (.invalid .rankZeroTensor)
  else (convertAll entries (.invalid (.degenerateTensor (Coefficient.domain R).text))).map fun cs =>
    ofTensor (Value.tensorOf shape cs) h

namespace Value

private theorem multinomial_eq_ofArray (v : Value) : v.multinomial (R := R) =
    Multinomial.ofArray v.shape ((v.atDepth v.shape.length).map number?) := by
  have hentries : v.entries? (R := R) =
      ((v.atDepth v.shape.length).map number?).mapM (·.bind Coefficient.ofScalar?) := by
    rw [entries?, List.mapM_map]
    rfl
  rw [multinomial, Multinomial.ofArray, convertAll, hentries]
  split
  · rfl
  · cases ((v.atDepth v.shape.length).map number?).mapM
      (·.bind (Coefficient.ofScalar? (R := R))) <;> rfl

omit [DecidableEq R] [Coefficient R] in
private theorem tensorOf_entries (t : Tensor R) : tensorOf t.shape t.entries.toList = t := by
  refine Tensor.ext_get (show (tensorOf t.shape _).shape = t.shape from rfl) rfl fun m hin => ?_
  rw [tensorOf, Tensor.get_ofFn, if_pos hin, Tensor.get, if_pos hin]

end Value

variable {F : Multinomial R} {t : Tensor R} {given : List (Option Scalar)}

private theorem Multinomial.ofArray_eq (hgiven : StandFor given t.entries.toList)
    (hrank : t.shape.length = F.nvars) (hget : ∀ m, t.get m = F.coefficient m) :
    ofArray t.shape given = .ok F := by
  have hne : t.shape ≠ [] := List.ne_nil_of_length_pos (hrank ▸ F.nvars_pos)
  have hcoeff (m : Monomial) :
      (Value.tensorOf t.shape t.entries.toList).get m = F.coefficient m := by
    rw [Value.tensorOf_entries, hget]
  rw [ofArray, dif_neg hne, convertAll_ok hgiven]
  exact congrArg Except.ok (ofTensor_eq (t := Value.tensorOf t.shape _) hrank hne hcoeff)

end Arrays

namespace Polynomial

variable {R : Type} [Zero R] [DecidableEq R] [Add R] [Coefficient R]

/-- The polynomial of terms from outside, kept in the way of `p` and in its variables. -/
def fromTermsLike (p : Polynomial R) (given : List RawTerm) : Except Failure (Polynomial R) :=
  match p with
  | univariate _ => (Univariate.fromTerms given 1).map univariate
  | multinomial p => (Multinomial.fromTerms given p.nvars).map multinomial

theorem fromTermsLike_eq {p : Polynomial R} {given : List RawTerm} {terms : List (Monomial × R)}
    (h : ReadAs given terms) (hl : ∀ t ∈ terms, t.1.length = p.nvars) :
    p.fromTermsLike given = .ok (p.ofTermsLike terms) := by
  cases p with
  | univariate f =>
    have hcs := mapM_ofOperand?_ok h.coefficients
    rw [List.mapM_map] at hcs
    rw [fromTermsLike, Univariate.fromTerms_eq h.ofInts?_eq (h.length_eq hl),
      h.map_toNat fun m => m.getD 0 0]
    show Except.map _ (Except.map _ (given.mapM (Coefficient.ofOperand? ∘ Prod.snd))) = _
    rw [hcs, Except.map, List.zip_map']
    rfl
  | multinomial F =>
    rw [fromTermsLike, Multinomial.fromTerms_eq h.ofInts?_eq F.nvars_pos (h.length_eq hl),
      convertAll_ok h.coefficients, h.map_toNat fun m => m, Except.map, List.zip_map']
    rw [show (terms.map fun t => (t.1, t.2)) = terms from terms.map_id]
    rfl

omit [Coefficient R] in
theorem addedAt_of_perm (hzero : ∀ c : R, 0 + c = c) {p : Polynomial R} {ts : List (Monomial × R)}
    (h : ts.Perm p.terms) (m : Monomial) : addedAt 0 ts m = p.coefficient m := by
  by_cases hm : p.coefficient m = 0
  · rw [hm]
    refine addedAt_of_not_mem (fun c hc => ?_) 0
    obtain ⟨hc, hne⟩ := mem_terms.mp (h.subset hc)
    exact hne (hc ▸ hm)
  · have hmem : (m, p.coefficient m) ∈ ts := h.mem_iff.mpr (mem_terms.mpr ⟨rfl, hm⟩)
    rw [addedAt_of_mem ((h.map Prod.fst).nodup_iff.mpr p.nodup_monomials) hmem, hzero]

omit [Coefficient R] in
private theorem addedAt_terms (hzero : ∀ c : R, 0 + c = c) (p : Polynomial R) (m : Monomial) :
    addedAt 0 p.terms m = p.coefficient m :=
  addedAt_of_perm hzero .rfl m

end Polynomial

section Domain

variable {D : Domain}

private theorem ofScalar?_toScalar (c : D.Elem) :
    Coefficient.ofScalar? (Coefficient.toScalar c) = some c := by
  cases D with
  | integers => rfl
  | rationals => rfl
  | reals => rfl
  | residues n => exact congrArg some (Residue.ofNat_val c)

private theorem standFor_operands (cs : List D.Elem) : StandFor (operands cs) cs := by
  rw [StandFor, operands, List.mapM_map]
  exact (mapM_eq_pure fun c _ => ofScalar?_toScalar c).trans (congrArg some cs.map_id)

theorem zero_add_of_ne_reals (hD : D ≠ .reals) (c : D.Elem) : 0 + c = c := by
  cases D with
  | integers => exact Int.zero_add c
  | rationals => exact Rat.zero_add c
  | reals => exact absurd rfl hD
  | residues n =>
    refine Residue.ext ?_
    show (0 % n + c.val) % n = c.val
    rw [Nat.zero_mod, Nat.zero_add, c.val_mod]

namespace AnyPolynomial

/-- Equality of polynomials in the same variables compares their coefficients. -/
theorem same_iff_coefficient {p q : Polynomial D.Elem} :
    (⟨D, p⟩ : AnyPolynomial).same ⟨D, q⟩ = true ↔
      p.nvars = q.nvars ∧ ∀ m, p.coefficient m = q.coefficient m := by
  rw [same_self, Polynomial.agrees, Bool.and_eq_true, beq_iff_eq, beq_iff_eq,
    Polynomial.terms_eq_iff]

private theorem same_univariate_iff {f g : Univariate D.Elem} :
    (⟨D, .univariate f⟩ : AnyPolynomial).same ⟨D, .univariate g⟩ = true ↔
      f.coefficients = g.coefficients := by
  rw [same_iff_coefficient]
  constructor
  · rintro ⟨-, h⟩
    exact congrArg _ (Univariate.ext_coefficient fun i => h [i])
  · intro h
    obtain rfl := Univariate.ext h
    exact ⟨rfl, fun _ => rfl⟩

private theorem same_multinomial_iff {F G : Multinomial D.Elem} :
    (⟨D, .multinomial F⟩ : AnyPolynomial).same ⟨D, .multinomial G⟩ = true ↔
      F.tensor.shape = G.tensor.shape ∧ F.tensor.entries = G.tensor.entries := by
  rw [same_iff_coefficient]
  constructor
  · rintro ⟨hn, h⟩
    obtain rfl := Multinomial.ext_coefficient hn h
    exact ⟨rfl, rfl⟩
  · rintro ⟨hshape, hentries⟩
    obtain rfl := Multinomial.ext (Tensor.ext_entries hshape hentries)
    exact ⟨rfl, fun _ => rfl⟩

end AnyPolynomial

end Domain

/-- The polynomials over a domain, which is what all constructors and operations return, as they are
stored and told apart. What is stored for a polynomial makes this polynomial, and so does every list,
array or run of terms that comes to its coefficients. -/
structure CanonicalRepresentation (D : Domain) : Prop where
  univariate : ∀ f : Univariate D.Elem, f.IsCanonical
  multinomial : ∀ F : Multinomial D.Elem, F.IsCanonical
  same_univariate : ∀ f g : Univariate D.Elem,
    (⟨D, .univariate f⟩ : AnyPolynomial).same ⟨D, .univariate g⟩ = true ↔
      f.coefficients = g.coefficients
  same_multinomial : ∀ F G : Multinomial D.Elem,
    (⟨D, .multinomial F⟩ : AnyPolynomial).same ⟨D, .multinomial G⟩ = true ↔
      F.tensor.shape = G.tensor.shape ∧ F.tensor.entries = G.tensor.entries
  of_list : ∀ (f : Univariate D.Elem) (given : List (Option Scalar)) (cs : List D.Elem),
    StandFor given cs → (∀ i, cs.getD i 0 = f.coefficient i) →
      Univariate.fromCoefficients given = .ok f
  of_array : ∀ (F : Multinomial D.Elem) (given : List (Option Scalar)) (t : Tensor D.Elem),
    StandFor given t.entries.toList → t.shape.length = F.nvars →
      (∀ m, t.get m = F.coefficient m) → Multinomial.ofArray t.shape given = .ok F
  of_nested_lists : ∀ (F : Multinomial D.Elem) (v : Value) (t : Tensor D.Elem), v.shape = t.shape →
    StandFor ((v.atDepth v.shape.length).map Value.number?) t.entries.toList →
      t.shape.length = F.nvars → (∀ m, t.get m = F.coefficient m) → v.multinomial = .ok F
  of_terms : ∀ (p : Polynomial D.Elem) (given : List RawTerm) (terms : List (Monomial × D.Elem)),
    ReadAs given terms → (∀ t ∈ terms, t.1.length = p.nvars) →
      (∀ m : Monomial, m.length = p.nvars → addedAt 0 terms m = p.coefficient m) →
        p.fromTermsLike given = .ok p
  array_self : ∀ F : Multinomial D.Elem,
    Multinomial.ofArray F.tensor.shape (operands F.tensor.entries.toList) = .ok F
  terms_self : ∀ p : Polynomial D.Elem,
    p.fromTermsLike (p.scalarTerms.map fun t => (t.1.toInts, some t.2)) = .ok p

theorem readAs_terms {D : Domain} (terms : List (Monomial × D.Elem)) :
    ReadAs (terms.map fun t => (t.1.toInts, some (Coefficient.toScalar t.2))) terms where
  exponents := by
    rw [List.map_map]
    rfl
  coefficients := by
    have h := standFor_operands (terms.map Prod.snd)
    rw [operands, List.map_map] at h
    rw [List.map_map]
    exact h

private theorem readAs_scalarTerms {D : Domain} (p : Polynomial D.Elem) :
    ReadAs (p.scalarTerms.map fun t => (t.1.toInts, some t.2)) p.terms := by
  rw [Polynomial.scalarTerms, List.map_map]
  exact readAs_terms p.terms

/-- Over integers, rationals and residues the representation of polynomials is canonical. -/
theorem canonicalRepresentation {D : Domain} (hD : D ≠ .reals) : CanonicalRepresentation D where
  univariate := Univariate.isCanonical
  multinomial := Multinomial.isCanonical
  same_univariate _ _ := AnyPolynomial.same_univariate_iff
  same_multinomial _ _ := AnyPolynomial.same_multinomial_iff
  of_list f given cs hgiven hcs := by
    rw [Univariate.fromCoefficients, convertAll_ok hgiven]
    exact congrArg Except.ok (Univariate.ofCoefficients_eq hcs)
  of_array _ _ _ hgiven hrank hget := Multinomial.ofArray_eq hgiven hrank hget
  of_nested_lists _ v _ hshape hgiven hrank hget := by
    rw [Value.multinomial_eq_ofArray, hshape]
    exact Multinomial.ofArray_eq (hshape ▸ hgiven) hrank hget
  of_terms p given terms hgiven hl hsum := by
    rw [Polynomial.fromTermsLike_eq hgiven hl, Polynomial.ofTermsLike_eq hl hsum]
  array_self F := Multinomial.ofArray_eq (standFor_operands _) rfl fun _ => rfl
  terms_self p := by
    have hl (t : Monomial × D.Elem) (ht : t ∈ p.terms) := Polynomial.length_of_mem_terms ht
    rw [Polynomial.fromTermsLike_eq (readAs_scalarTerms p) hl, Polynomial.ofTermsLike_eq hl]
    exact fun m _ => Polynomial.addedAt_terms (zero_add_of_ne_reals hD) p m

theorem canonicalRepresentation_residues :
    Domain.residues 4 ≠ .reals ∧ CanonicalRepresentation (.residues 4) :=
  ⟨by decide, canonicalRepresentation (by decide)⟩

end PolyIdeal
