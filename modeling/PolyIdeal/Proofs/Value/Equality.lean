import PolyIdeal.Proofs.Polynomial.Denotation
import PolyIdeal.Proofs.Value.OneDomain

/-!
# Equality of polynomials over several domains

Polynomials over the integers and the rationals, and those over the residues modulo one number, are
the same just if they have the same variables and the same key. Across these kinds of domains
polynomials can be the same, since a residue equals the integers that it stands for, but their keys
never are.
-/

namespace PolyIdeal

def Domain.modulus? : Domain → Option ℕ
  | residues n => some n
  | _ => none

namespace CoefficientKey

private def modulus? : CoefficientKey → Option ℕ
  | number _ => none
  | residue _ n => some n

end CoefficientKey

section Coefficients

variable {D E : Domain}

private theorem modulus?_key_toScalar (a : D.Elem) :
    (Coefficient.toScalar a).key.modulus? = D.modulus? := by
  cases D <;> rfl

private theorem same_toScalar_iff_key (hD : D ≠ .reals) (hE : E ≠ .reals)
    (h : D.modulus? = E.modulus?) (a : D.Elem) (b : E.Elem) :
    (Coefficient.toScalar a).same (Coefficient.toScalar b) = true ↔
      (Coefficient.toScalar a).key = (Coefficient.toScalar b).key := by
  have number_iff {x y : ℚ} : CoefficientKey.number x = .number y ↔ x = y := by
    rw [CoefficientKey.number.injEq]
  cases D with
  | reals => exact absurd rfl hD
  | integers =>
    cases E with
    | reals => exact absurd rfl hE
    | integers => exact beq_iff_eq.trans (Rat.intCast_inj.symm.trans number_iff.symm)
    | rationals => exact beq_iff_eq.trans number_iff.symm
    | residues n => cases h
  | rationals =>
    cases E with
    | reals => exact absurd rfl hE
    | integers => exact beq_iff_eq.trans number_iff.symm
    | rationals => exact beq_iff_eq.trans number_iff.symm
    | residues n => cases h
  | residues n =>
    cases E with
    | reals => exact absurd rfl hE
    | integers => cases h
    | rationals => cases h
    | residues m =>
      obtain rfl : n = m := Option.some.inj h
      rw [same_toScalar, beq_iff_eq]
      show _ ↔ CoefficientKey.residue (Residue.val a) n = .residue (Residue.val b) n
      rw [CoefficientKey.residue.injEq, and_iff_left rfl, Residue.ext_iff]

private theorem key_toScalar_zero (hD : D ≠ .reals) (hE : E ≠ .reals)
    (h : D.modulus? = E.modulus?) :
    (Coefficient.toScalar (0 : D.Elem)).key = (Coefficient.toScalar (0 : E.Elem)).key := by
  have key_zero {D : Domain} (hD : D ≠ .reals) : (Coefficient.toScalar (0 : D.Elem)).key =
      D.modulus?.elim (.number 0) (.residue 0) := by
    cases D with
    | reals => exact absurd rfl hD
    | integers => rfl
    | rationals => rfl
    | residues n => exact congrArg (CoefficientKey.residue · n) (Nat.zero_mod n)
  rw [key_zero hD, key_zero hE, h]

end Coefficients

namespace PolynomialKey

private def modulus? : PolynomialKey → Option ℕ
  | constant c => c.modulus?
  | terms _ ts => ts.head?.bind fun t => t.2.modulus?

private def ofTerms (nvars : ℕ) (zero : CoefficientKey) :
    List (Monomial × CoefficientKey) → PolynomialKey
  | [] => constant zero
  | [(m, c)] => if m = Monomial.unit nvars then constant c else terms nvars [(m, c)]
  | ts => terms nvars ts

private def toTerms (nvars : ℕ) (zero : CoefficientKey) :
    PolynomialKey → List (Monomial × CoefficientKey)
  | constant c => if c = zero then [] else [(Monomial.unit nvars, c)]
  | terms _ ts => ts

variable {nvars : ℕ} {zero : CoefficientKey} {ts ts' : List (Monomial × CoefficientKey)}

private theorem toTerms_ofTerms (h : ∀ t ∈ ts, t.2 ≠ zero) :
    (ofTerms nvars zero ts).toTerms nvars zero = ts := by
  match ts with
  | [] => exact if_pos rfl
  | [(m, c)] =>
    rw [ofTerms]
    split
    · rename_i hm
      rw [toTerms, if_neg (h (m, c) List.mem_cons_self), hm]
    · rfl
  | t :: t' :: ts => rfl

private theorem ofTerms_inj (h : ∀ t ∈ ts, t.2 ≠ zero) (h' : ∀ t ∈ ts', t.2 ≠ zero) :
    ofTerms nvars zero ts = ofTerms nvars zero ts' ↔ ts = ts' := by
  refine ⟨fun heq => ?_, congrArg _⟩
  have hterms := congrArg (toTerms nvars zero) heq
  rwa [toTerms_ofTerms h, toTerms_ofTerms h'] at hterms

private theorem modulus?_ofTerms {n : Option ℕ} (hzero : zero.modulus? = n)
    (h : ∀ t ∈ ts, t.2.modulus? = n) : (ofTerms nvars zero ts).modulus? = n := by
  match ts with
  | [] => exact hzero
  | [(m, c)] =>
    rw [ofTerms]
    split <;> exact h (m, c) List.mem_cons_self
  | t :: t' :: ts => exact h t List.mem_cons_self

end PolynomialKey

namespace AnyPolynomial

private def keyedTerms (p : AnyPolynomial) : List (Monomial × CoefficientKey) :=
  p.terms.map fun t => (t.1, t.2.key)

variable {p q r : AnyPolynomial}

private theorem key_eq_ofTerms (p : AnyPolynomial) :
    p.key = .ofTerms p.nvars (Coefficient.toScalar (0 : p.domain.Elem)).key p.keyedTerms := by
  rw [key, keyedTerms]
  match p.terms with
  | [] => rfl
  | [(m, c)] => rfl
  | t :: t' :: ts => rfl

private theorem exists_of_mem_terms {t : Monomial × Scalar} (ht : t ∈ p.terms) :
    ∃ c : p.domain.Elem, c ≠ 0 ∧ t = (t.1, Coefficient.toScalar c) := by
  obtain ⟨s, hs, rfl⟩ := List.mem_map.mp ht
  exact ⟨s.2, (Polynomial.mem_terms.mp hs).2, rfl⟩

private theorem ne_of_mem_keyedTerms (hp : p.domain ≠ .reals) {t : Monomial × CoefficientKey}
    (ht : t ∈ p.keyedTerms) : t.2 ≠ (Coefficient.toScalar (0 : p.domain.Elem)).key := by
  obtain ⟨s, hs, rfl⟩ := List.mem_map.mp ht
  obtain ⟨c, hc, hs⟩ := exists_of_mem_terms hs
  rw [hs]
  intro hkey
  have hsame := (same_toScalar_iff_key hp hp rfl c 0).mpr hkey
  rw [same_toScalar, beq_iff_eq] at hsame
  exact hc hsame

private theorem modulus?_key (p : AnyPolynomial) : p.key.modulus? = p.domain.modulus? := by
  rw [key_eq_ofTerms]
  refine PolynomialKey.modulus?_ofTerms (modulus?_key_toScalar 0) fun t ht => ?_
  obtain ⟨s, hs, rfl⟩ := List.mem_map.mp ht
  obtain ⟨c, -, hs⟩ := exists_of_mem_terms hs
  rw [hs]
  exact modulus?_key_toScalar c

private theorem all_zip_iff_map_key {ss ts : List (Monomial × Scalar)}
    (h : ∀ s ∈ ss, ∀ t ∈ ts, s.2.same t.2 = true ↔ s.2.key = t.2.key) :
    (ss.length == ts.length && (ss.zip ts).all fun (s, t) => s.1 == t.1 && s.2.same t.2) = true ↔
      ss.map (fun t => (t.1, t.2.key)) = ts.map fun t => (t.1, t.2.key) := by
  induction ss generalizing ts with
  | nil => cases ts <;> simp
  | cons s ss ih =>
    cases ts with
    | nil => simp
    | cons t ts =>
      have htail := ih fun s hs t ht => h s (List.mem_cons_of_mem _ hs) t (List.mem_cons_of_mem _ ht)
      have hhead := h s List.mem_cons_self t List.mem_cons_self
      rw [List.map_cons, List.map_cons, List.cons.injEq, Prod.mk.injEq, ← hhead, ← htail]
      simp only [List.length_cons, List.zip_cons_cons, List.all_cons, Bool.and_eq_true, beq_iff_eq,
        Nat.succ_inj]
      exact and_left_comm

section Exact

variable (hp : p.domain ≠ .reals) (hq : q.domain ≠ .reals)
  (h : p.domain.modulus? = q.domain.modulus?)
include hp hq h

/-- Polynomials over domains of one kind are the same just if they have the same variables and the
same key. -/
theorem same_iff_key : p.same q = true ↔ p.nvars = q.nvars ∧ p.key = q.key := by
  have hterms : ∀ s ∈ p.terms, ∀ t ∈ q.terms, s.2.same t.2 = true ↔ s.2.key = t.2.key := by
    intro s hs t ht
    obtain ⟨a, -, hs⟩ := exists_of_mem_terms hs
    obtain ⟨b, -, ht⟩ := exists_of_mem_terms ht
    rw [hs, ht]
    exact same_toScalar_iff_key hp hq h a b
  have hsame : p.same q = true ↔ p.nvars = q.nvars ∧ p.keyedTerms = q.keyedTerms := by
    rw [same, Bool.and_assoc, Bool.and_eq_true, beq_iff_eq, all_zip_iff_map_key hterms]
    rfl
  rw [hsame]
  apply and_congr_right
  intro hnvars
  have hzero := key_toScalar_zero hp hq h
  rw [key_eq_ofTerms, key_eq_ofTerms, hnvars, hzero]
  refine (PolynomialKey.ofTerms_inj (fun t ht => ?_) fun t ht => ne_of_mem_keyedTerms hq ht).symm
  rw [← hzero]
  exact ne_of_mem_keyedTerms hp ht

end Exact

/-- Equality is fit for sets and mappings of some polynomials: it is an equivalence relation, and
polynomials that are the same have the same key. -/
structure IsSoundOn (P : AnyPolynomial → Prop) : Prop where
  refl : ∀ p, P p → p.same p = true
  symm : ∀ p q, P p → P q → p.same q = true → q.same p = true
  trans : ∀ p q r, P p → P q → P r → p.same q = true → q.same r = true → p.same r = true
  key_eq : ∀ p q, P p → P q → p.same q = true → p.key = q.key

/-- Equality is fit for polynomials over exact domains just if none of them is the same as one over
another kind of domain. -/
theorem isSoundOn_iff {P : AnyPolynomial → Prop} (hP : ∀ p, P p → p.domain ≠ .reals) :
    IsSoundOn P ↔
      ∀ p q, P p → P q → p.same q = true → p.domain.modulus? = q.domain.modulus? := by
  constructor
  · intro hsound p q hp hq hsame
    rw [← modulus?_key, ← modulus?_key, hsound.key_eq p q hp hq hsame]
  · intro hkind
    have hkey (p q : AnyPolynomial) (hp : P p) (hq : P q) (hsame : p.same q = true) :
        p.nvars = q.nvars ∧ p.key = q.key :=
      (same_iff_key (hP p hp) (hP q hq) (hkind p q hp hq hsame)).mp hsame
    refine ⟨?_, ?_, ?_, fun p q hp hq hsame => (hkey p q hp hq hsame).2⟩
    · intro p hp
      exact (same_iff_key (hP p hp) (hP p hp) rfl).mpr ⟨rfl, rfl⟩
    · intro p q hp hq hsame
      obtain ⟨hnvars, heq⟩ := hkey p q hp hq hsame
      have hmodulus := hkind p q hp hq hsame
      exact (same_iff_key (hP q hq) (hP p hp) hmodulus.symm).mpr ⟨hnvars.symm, heq.symm⟩
    · intro p q r hp hq hr hpq hqr
      obtain ⟨hnvars, heq⟩ := hkey p q hp hq hpq
      obtain ⟨hnvars', heq'⟩ := hkey q r hq hr hqr
      have hmodulus := (hkind p q hp hq hpq).trans (hkind q r hq hr hqr)
      exact (same_iff_key (hP p hp) (hP r hr) hmodulus).mpr
        ⟨hnvars.trans hnvars', heq.trans heq'⟩

theorem isSoundOn_iff_numbers :
    IsSoundOn fun p => p.domain = .integers ∨ p.domain = .rationals := by
  refine (isSoundOn_iff ?_).mpr ?_
  · rintro p (hp | hp) hreals <;> rw [hp] at hreals <;> cases hreals
  · rintro p q (hp | hp) (hq | hq) - <;> rw [hp, hq] <;> rfl

/-- It is not fit for all polynomials over exact domains: the zeros over the integers and modulo two
are the same and have different keys. -/
theorem not_isSoundOn_exact : ¬ IsSoundOn fun p => p.domain ≠ .reals := by
  intro h
  have hkey := h.key_eq ⟨.integers, .univariate 0⟩ ⟨.residues 2, .univariate 0⟩ nofun nofun rfl
  cases hkey

end AnyPolynomial

end PolyIdeal
