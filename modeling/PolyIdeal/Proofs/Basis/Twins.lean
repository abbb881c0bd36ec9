import PolyIdeal.Proofs.Basis.Alike
import PolyIdeal.Proofs.Polynomial.Conversion
import PolyIdeal.Proofs.Polynomial.Evaluation

/-!
# Univariate polynomials and their twins

A polynomial in one variable can be kept as a coefficient list or as a tensor with one axis. The two
ways go through different computations: lists are added with their tails and multiplied by a
convolution, tensors over the shape that covers both and term by term. Whatever is done with them,
polynomials of the same terms give the same, also where they are mixed.
-/

namespace PolyIdeal

open PolyIdeal.Polynomial

variable {R : Type}

namespace Univariate

section Forms

variable [Zero R] [DecidableEq R] {f : Univariate R} {p : Polynomial R}

/-- A tensor in one variable with the same terms. -/
structure IsTwin (f : Univariate R) (F : Multinomial R) : Prop where
  nvars_eq : F.nvars = 1
  terms_eq : F.terms = f.terms

/-- One of the ways to keep the polynomial. -/
inductive IsForm (f : Univariate R) : Polynomial R → Prop
  | list : IsForm f (univariate f)
  | tensor {F : Multinomial R} (h : f.IsTwin F) : IsForm f (multinomial F)

theorem isForm_iff : f.IsForm p ↔ Alike 1 (univariate f) p := by
  constructor
  · rintro (_ | h)
    · exact .refl rfl
    · exact ⟨rfl, h.nvars_eq, h.terms_eq.symm⟩
  · intro h
    cases p with
    | univariate g =>
      obtain rfl : f = g := ext_coefficient fun i => h.coefficient_eq [i]
      exact .list
    | multinomial F => exact .tensor ⟨h.nvars_eq', h.terms_eq.symm⟩

private theorem IsForm.degree_eq (h : f.IsForm p) : p.degree = f.degree := by
  cases h with
  | list => rfl
  | tensor h =>
    rw [Polynomial.degree, h.terms_eq, foldl_terms_eq_size, degree]

end Forms

section SetDomain

variable {S : Type} [Zero R] [DecidableEq R] [Coefficient R] [Zero S] [DecidableEq S] [Add S]
  {f : Univariate R} {p : Polynomial R}

private theorem alike_ofTerms {n : ℕ} (hn : n = 1) (h : 0 < n) {terms : List (Monomial × S)}
    (hl : ∀ t ∈ terms, t.1.length = 1) :
    Alike 1 (univariate (ofTerms (terms.map fun t => (t.1.getD 0 0, t.2))))
      (multinomial (Multinomial.ofTerms n h terms)) := by
  subst hn
  have hF : (multinomial (Multinomial.ofTerms 1 h terms)).nvars = 1 :=
    Multinomial.nvars_ofTerms 1 h terms
  refine ⟨rfl, hF, terms_eq_iff.mpr fun m => ?_⟩
  by_cases hm : m.length = 1
  · refine (coefficient_ofTermsLike_eq_addedAt (univariate 0) hl hm).trans ?_
    exact (Multinomial.coefficient_ofTerms_eq_addedAt h hl m).symm
  · rw [coefficient_of_length_ne hm, coefficient_of_length_ne fun hm' => hm (hm'.trans hF)]

private theorem IsForm.setDomain [Sub S] [Mul S] [Neg S] [Coefficient S] (h : f.IsForm p) :
    SameOutcome (Alike 1) ((univariate f).setDomain (S := S)) (p.setDomain (S := S)) := by
  have halike := isForm_iff.mp h
  rw [Polynomial.setDomain, Polynomial.setDomain, scalarTerms, scalarTerms, ← halike.terms_eq]
  refine SameOutcome.bind_same fun cs _ => ?_
  cases h with
  | list => exact .success (.refl rfl)
  | @tensor F h =>
    have hl : ∀ t ∈ (f.terms.map Prod.fst).zip cs, t.1.length = 1 := by
      intro t ht
      obtain ⟨s, hs, hst⟩ := List.mem_map.mp (List.of_mem_zip ht).1
      rw [← hst]
      exact length_of_mem_terms (p := univariate f) hs
    have hterms : (f.terms.map fun t => t.1.getD 0 0).zip cs =
        ((f.terms.map Prod.fst).zip cs).map fun t => (t.1.getD 0 0, t.2) := by
      have hexponents : f.terms.map (fun t => t.1.getD 0 0) =
          (f.terms.map Prod.fst).map (·.getD 0 0) := by
        rw [List.map_map]
        rfl
      rw [hexponents, List.zip_map_left]
      rfl
    have hsame := alike_ofTerms h.nvars_eq F.nvars_pos hl
    rw [← hterms] at hsame
    refine .success ?_
    rw [h.terms_eq]
    exact hsame

private theorem IsForm.exists_setDomain [Sub S] [Mul S] [Neg S] [Coefficient S] (h : f.IsForm p)
    (hconvert : ∀ t ∈ f.terms, ∃ c : S,
      Coefficient.ofOperand? (some (Coefficient.toScalar t.2)) = .ok c) :
    ∃ r, p.setDomain (S := S) = .ok r := by
  have hterms : ∀ t ∈ p.scalarTerms, ∃ c : S, Coefficient.ofOperand? (some t.2) = .ok c := by
    rw [scalarTerms, ← (isForm_iff.mp h).terms_eq]
    exact List.forall_mem_map.mpr hconvert
  obtain ⟨cs, hcs⟩ := exists_mapM_ok hterms
  rw [Polynomial.setDomain, hcs]
  cases p with
  | univariate p => exact ⟨_, rfl⟩
  | multinomial p => exact ⟨_, rfl⟩

end SetDomain

section Ring

variable [CommRing R] [DecidableEq R] {f g : Univariate R} {p q : Polynomial R}

private theorem exists_isTwin (f : Univariate R) : ∃ F, f.IsTwin F := by
  let zero : Multinomial R := Multinomial.ofTerms 1 Nat.one_pos []
  have hn : (multinomial zero).nvars = 1 := Multinomial.nvars_ofTerms 1 Nat.one_pos []
  have halike : Alike 1 (univariate f) _ :=
    .of_denote rfl (nvars_convertLike (q := univariate f) hn) (denote_convertLike hn rfl).symm
  exact ⟨_, halike.nvars_eq', halike.terms_eq.symm⟩

private theorem exists_isForm {x : Except Failure (Polynomial R)}
    (h : SameOutcome (Alike 1) (.ok (univariate f)) x) : ∃ r, x = .ok r ∧ f.IsForm r := by
  obtain ⟨r, hr, hsame⟩ := h.exists_of_ok
  exact ⟨r, hr, isForm_iff.mpr hsame⟩

private theorem IsForm.evaluateAt (hp : f.IsForm p) (x : R) :
    p.evaluateAt [x] = .ok (f.evaluate x) := by
  cases hp with
  | list => rfl
  | @tensor F h =>
    have halike := isForm_iff.mp (.tensor h)
    have heval := evaluate_eq (p := multinomial F) h.nvars_eq fun _ => x
    rw [← halike.denote_eq, ← evaluate_eq (p := univariate f) (n := 1) rfl] at heval
    rw [Polynomial.evaluateAt, if_pos (by rw [h.nvars_eq]; rfl)]
    exact congrArg Except.ok heval

variable [Coefficient R]

private theorem IsForm.scaleBy (hp : f.IsForm p) (c : Option Scalar) :
    SameOutcome (Alike 1) ((univariate f).scaleBy c) (p.scaleBy c) := by
  rw [Polynomial.scaleBy, Polynomial.scaleBy]
  exact SameOutcome.map_same (isForm_iff.mp hp).scale

private theorem IsForm.mulTermBy (hp : f.IsForm p) (k : ℤ) (c : Option Scalar) :
    SameOutcome (Alike 1) ((univariate f).mulTermBy [k] c) (p.mulTermBy [k] c) := by
  have halike := isForm_iff.mp hp
  rw [Polynomial.mulTermBy, Polynomial.mulTermBy]
  refine SameOutcome.bind_same fun m hm => ?_
  have hlen : m.length = 1 := by
    rw [Monomial.ofInts?] at hm
    split at hm
    · obtain rfl := Except.ok.inj hm
      rfl
    · cases hm
  rw [checkMonomial_ok (hlen.trans halike.nvars_eq.symm),
    checkMonomial_ok (hlen.trans halike.nvars_eq'.symm)]
  refine SameOutcome.bind_same fun _ _ => ?_
  exact SameOutcome.bind_same fun c _ => halike.mulTerm hlen c

end Ring

section Lists

variable [CommRing R] [DecidableEq R] {fs : List (Univariate R)} {ps : List (Polynomial R)}

private theorem forall₂_alike (h : List.Forall₂ IsForm fs ps) :
    List.Forall₂ (Alike 1) (fs.map univariate) ps :=
  List.forall₂_map_left_iff.mpr (h.imp fun _ _ h => isForm_iff.mp h)

end Lists

end Univariate

open Univariate

/-- On polynomials in one variable all operations give the same, in whatever way each of the operands
is kept: the same values, and polynomials of the same terms. -/
structure FormsAgree (R : Type) [CommRing R] [DecidableEq R] [Coefficient R] : Prop where
  exists_isTwin (f : Univariate R) : ∃ F, f.IsTwin F
  add {f g : Univariate R} {p q : Polynomial R} (hp : f.IsForm p) (hq : g.IsForm q) :
    ∃ r, p.add q = .ok r ∧ (f + g).IsForm r
  sub {f g : Univariate R} {p q : Polynomial R} (hp : f.IsForm p) (hq : g.IsForm q) :
    ∃ r, p.sub q = .ok r ∧ (f - g).IsForm r
  mul {f g : Univariate R} {p q : Polynomial R} (hp : f.IsForm p) (hq : g.IsForm q) :
    ∃ r, p.mul q = .ok r ∧ (f * g).IsForm r
  neg {f : Univariate R} {p : Polynomial R} (hp : f.IsForm p) : (-f).IsForm (-p)
  power {f : Univariate R} {p : Polynomial R} (hp : f.IsForm p) (k : ℕ) :
    Alike 1 ((univariate f).power k) (p.power k)
  scale {f : Univariate R} {p : Polynomial R} (hp : f.IsForm p) (c : R) :
    (f.mulTerm 0 c).IsForm (p.scale c)
  /-- The factor is any operand, which may have no counterpart in the domain. -/
  scaleBy {f : Univariate R} {p : Polynomial R} (hp : f.IsForm p) (c : Option Scalar) :
    SameOutcome (Alike 1) ((univariate f).scaleBy c) (p.scaleBy c)
  mulTerm {f : Univariate R} {p : Polynomial R} (hp : f.IsForm p) (k : ℕ) (c : R) :
    ∃ r, p.mulTerm [k] c = .ok r ∧ (f.mulTerm k c).IsForm r
  /-- Exponents may be negative and coefficients any operands. -/
  mulTermBy {f : Univariate R} {p : Polynomial R} (hp : f.IsForm p) (k : ℤ) (c : Option Scalar) :
    SameOutcome (Alike 1) ((univariate f).mulTermBy [k] c) (p.mulTermBy [k] c)
  withoutExponents {f : Univariate R} {p : Polynomial R} (hp : f.IsForm p) (exponents : List ℤ) :
    Alike 1 ((univariate f).withoutExponents exponents) (p.withoutExponents exponents)
  setDomain {f : Univariate R} {p : Polynomial R} (hp : f.IsForm p) (S : Type) [Zero S]
      [DecidableEq S] [Add S] [Sub S] [Mul S] [Neg S] [Coefficient S] :
    SameOutcome (Alike 1) ((univariate f).setDomain (S := S)) (p.setDomain (S := S))
  /-- Coefficients that convert are all that a change of the domain needs. -/
  exists_setDomain {f : Univariate R} {p : Polynomial R} (hp : f.IsForm p) (S : Type) [Zero S]
      [DecidableEq S] [Add S] [Sub S] [Mul S] [Neg S] [Coefficient S]
      (hconvert : ∀ t ∈ f.terms, ∃ c : S,
        Coefficient.ofOperand? (some (Coefficient.toScalar t.2)) = .ok c) :
    ∃ r, p.setDomain (S := S) = .ok r
  degree_eq {f : Univariate R} {p : Polynomial R} (hp : f.IsForm p) : p.degree = f.degree
  terms_eq {f : Univariate R} {p : Polynomial R} (hp : f.IsForm p) : p.terms = f.terms
  leadingTerm_eq {f : Univariate R} {p : Polynomial R} (hp : f.IsForm p) (order : Order) :
    p.leadingTerm order = (univariate f).leadingTerm order
  evaluateAt_eq {f : Univariate R} {p : Polynomial R} (hp : f.IsForm p) (x : R) :
    p.evaluateAt [x] = .ok (f.evaluate x)
  text_eq {f : Univariate R} {p : Polynomial R} (hp : f.IsForm p) : p.text = f.text
  reduce {f : Univariate R} {p : Polynomial R} {basis : List (Univariate R)}
      {basis' : List (Polynomial R)} (hp : f.IsForm p) (hbasis : List.Forall₂ IsForm basis basis')
      (order : Order) (tolerance : Option Tolerance) :
    SameOutcome (Alike 1)
      (PolyIdeal.reduce (univariate f) (basis.map univariate) order tolerance).result
      (PolyIdeal.reduce p basis' order tolerance).result
  groebnerBasis {generators : List (Univariate R)} {generators' : List (Polynomial R)}
      (h : List.Forall₂ IsForm generators generators') (order : Order) (config : Config) :
    SameOutcome (List.Forall₂ (Alike 1))
      (PolyIdeal.groebnerBasis (generators.map univariate) order config).result
      (PolyIdeal.groebnerBasis generators' order config).result

/-- Coefficient lists and tensors with one axis implement the same polynomials. -/
theorem formsAgree (R : Type) [CommRing R] [DecidableEq R] [Coefficient R] : FormsAgree R where
  exists_isTwin := Univariate.exists_isTwin
  add hp hq := exists_isForm ((isForm_iff.mp hp).add (isForm_iff.mp hq))
  sub hp hq := exists_isForm ((isForm_iff.mp hp).sub (isForm_iff.mp hq))
  mul hp hq := exists_isForm ((isForm_iff.mp hp).mul (isForm_iff.mp hq))
  neg hp := isForm_iff.mpr (isForm_iff.mp hp).neg
  power hp k := (isForm_iff.mp hp).power k
  scale hp c := isForm_iff.mpr ((isForm_iff.mp hp).scale c)
  scaleBy := IsForm.scaleBy
  mulTerm hp k c := exists_isForm ((isForm_iff.mp hp).mulTerm (u := [k]) rfl c)
  mulTermBy := IsForm.mulTermBy
  withoutExponents hp _ := (isForm_iff.mp hp).filterTerms _
  setDomain hp _ := hp.setDomain
  exists_setDomain hp _ := fun hconvert => hp.exists_setDomain hconvert
  degree_eq := IsForm.degree_eq
  terms_eq hp := (isForm_iff.mp hp).terms_eq.symm
  leadingTerm_eq hp order := ((isForm_iff.mp hp).leadingTerm_eq order).symm
  evaluateAt_eq := IsForm.evaluateAt
  text_eq hp := (isForm_iff.mp hp).text_eq.symm
  reduce hp hbasis order tolerance :=
    reduce_alike (isForm_iff.mp hp) (forall₂_alike hbasis) order tolerance
  groebnerBasis h order config := groebnerBasis_alike (forall₂_alike h) order config

end PolyIdeal
