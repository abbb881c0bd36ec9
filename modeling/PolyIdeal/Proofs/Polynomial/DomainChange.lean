import PolyIdeal.Proofs.Coefficient.Integer
import PolyIdeal.Proofs.Polynomial.Conversion
import PolyIdeal.Proofs.Polynomial.EvaluationHom
import PolyIdeal.Proofs.Polynomial.Form

/-!
# Change of the domain

A polynomial over another domain has the coefficients that the old ones convert to, and is kept in
the same way; those that become zero are trimmed. From the integers this is a homomorphism, so it
does not matter whether one changes the domain before or after an operation.
-/

namespace PolyIdeal

def SameResult {α : Type} (x y : Except Failure α) : Prop :=
  ∃ a, x = .ok a ∧ y = .ok a

/-- The element of another domain that an element converts to. -/
def Coefficient.convert {R S : Type} [Coefficient R] [Coefficient S] (c : R) : Except Failure S :=
  ofOperand? (some (toScalar c))

private theorem Coefficient.convert_integer {S : Type} [CommRing S] [Coefficient S]
    [IntegerCoefficient S] (k : ℤ) : convert k = .ok (k : S) := by
  have hk : ofScalar? (R := S) (toScalar k) = some (k : S) :=
    IntegerCoefficient.ofScalar?_integer k
  rw [convert, ofOperand?, Option.bind_some, hk]

namespace Polynomial

open Coefficient Monomial

variable {R S : Type} [CommRing R] [DecidableEq R] [CommRing S] [DecidableEq S] {n : ℕ}

def mapCoefficients (ψ : R → S) : Polynomial R → Polynomial S
  | univariate p => univariate (Univariate.ofTerms (p.terms.map fun t => (t.1.getD 0 0, ψ t.2)))
  | multinomial p =>
    multinomial (Multinomial.ofTerms p.nvars p.nvars_pos (p.terms.map fun t => (t.1, ψ t.2)))

private theorem isUnivariate_mapCoefficients (ψ : R → S) (p : Polynomial R) :
    (p.mapCoefficients ψ).isUnivariate = p.isUnivariate := by
  cases p <;> rfl

private theorem nvars_mapCoefficients (ψ : R → S) (p : Polynomial R) :
    (p.mapCoefficients ψ).nvars = p.nvars := by
  cases p with
  | univariate p => rfl
  | multinomial p => exact Multinomial.nvars_ofTerms _ _ _

omit [DecidableEq S] in
private theorem sumAt_map_terms {ψ : R → S} (hzero : ψ 0 = 0) (p : Polynomial R) (m : Monomial) :
    sumAt (p.terms.map fun t => (t.1, ψ t.2)) m = ψ (p.coefficient m) := by
  by_cases hm : p.coefficient m = 0
  · rw [hm, hzero]
    apply sumAt_of_not_mem
    intro c hc
    obtain ⟨t, ht, htc⟩ := List.mem_map.mp hc
    obtain ⟨rfl, -⟩ := Prod.mk.inj htc
    obtain ⟨hcoefficient, hne⟩ := mem_terms.mp ht
    exact hne (hcoefficient.symm.trans hm)
  · have hnodup : ((p.terms.map fun t => (t.1, ψ t.2)).map Prod.fst).Nodup := by
      rw [List.map_map]
      exact p.nodup_monomials
    exact sumAt_of_mem hnodup (List.mem_map.mpr ⟨_, mem_terms.mpr ⟨rfl, hm⟩, rfl⟩)

/-- Coefficients that become zero are trimmed, which the other ones do not notice. -/
private theorem coefficient_mapCoefficients {ψ : R → S} (hzero : ψ 0 = 0) (p : Polynomial R)
    (m : Monomial) : (p.mapCoefficients ψ).coefficient m = ψ (p.coefficient m) := by
  have hlen : ∀ t ∈ p.terms.map fun t => (t.1, ψ t.2), t.1.length = p.nvars := by
    intro t ht
    obtain ⟨s, hs, rfl⟩ := List.mem_map.mp ht
    exact length_of_mem_terms hs
  rw [← sumAt_map_terms hzero]
  cases p with
  | univariate p =>
    by_cases hm : m.length = 1
    · rw [← coefficient_ofTermsLike (univariate 0) hlen hm, ofTermsLike, List.map_map]
      rfl
    · rw [coefficient_of_length_ne hm, sumAt_map_terms hzero, coefficient_of_length_ne hm, hzero]
  | multinomial p => exact Multinomial.coefficient_ofTerms p.nvars_pos hlen m

private theorem denote_mapCoefficients (φ : R →+* S) {p : Polynomial R} (hp : p.nvars = n) :
    (p.mapCoefficients φ).denote n = MvPolynomial.map φ (p.denote n) := by
  refine denote_eq ((nvars_mapCoefficients φ p).trans hp) fun e => ?_
  rw [coefficient_mapCoefficients φ.map_zero, MvPolynomial.coeff_map, coeff_denote hp]

section Homomorphism

variable (φ : R →+* S) {f g : Polynomial R}

private theorem mapCoefficients_eq {q : Polynomial S} (hkind : q.isUnivariate = f.isUnivariate)
    (hf : f.nvars = n) (hq : q.nvars = n) (h : q.denote n = MvPolynomial.map φ (f.denote n)) :
    f.mapCoefficients φ = q := by
  apply eq_of_denote _ ((nvars_mapCoefficients φ f).trans hf) hq
  · rw [denote_mapCoefficients φ hf, h]
  · rw [isUnivariate_mapCoefficients, hkind]

private theorem mapCoefficients_neg (f : Polynomial R) :
    (-f).mapCoefficients φ = -f.mapCoefficients φ := by
  obtain ⟨hn, hd⟩ := neg_spec (p := f) rfl
  obtain ⟨hn', hd'⟩ := neg_spec (nvars_mapCoefficients φ f)
  apply mapCoefficients_eq φ _ hn hn'
  · rw [hd', hd, denote_mapCoefficients φ rfl, map_neg]
  · rw [isUnivariate_neg, isUnivariate_neg, isUnivariate_mapCoefficients]

private theorem mapCoefficients_power (f : Polynomial R) (k : ℕ) :
    (f.power k).mapCoefficients φ = (f.mapCoefficients φ).power k := by
  obtain ⟨hn, hd⟩ := power_spec (p := f) rfl k
  obtain ⟨hn', hd'⟩ := power_spec (nvars_mapCoefficients φ f) k
  apply mapCoefficients_eq φ _ hn hn'
  · rw [hd', hd, denote_mapCoefficients φ rfl, map_pow]
  · rw [isUnivariate_power, isUnivariate_power, isUnivariate_mapCoefficients]

private theorem exists_mapCoefficients_combine
    {op : Univariate R → Univariate R → Univariate R}
    {op' : Multinomial R → Multinomial R → Multinomial R}
    {opS : Univariate S → Univariate S → Univariate S}
    {opS' : Multinomial S → Multinomial S → Multinomial S}
    (law : ∀ {T : Type} [CommRing T], T → T → T)
    (hlaw : ∀ F G : MvPolynomial (Fin n) R, MvPolynomial.map φ (law F G) =
      law (MvPolynomial.map φ F) (MvPolynomial.map φ G))
    (hop : ∃ r, combine op op' f g = .ok r ∧ r.nvars = n ∧
      r.denote n = law (f.denote n) (g.denote n))
    (hopS : ∃ s, combine opS opS' (f.mapCoefficients φ) (g.mapCoefficients φ) = .ok s ∧
      s.nvars = n ∧
      s.denote n = law ((f.mapCoefficients φ).denote n) ((g.mapCoefficients φ).denote n))
    (hf : f.nvars = n) (hg : g.nvars = n) :
    ∃ r, combine op op' f g = .ok r ∧
      combine opS opS' (f.mapCoefficients φ) (g.mapCoefficients φ) =
        .ok (r.mapCoefficients φ) := by
  obtain ⟨r, hr, hrn, hrd⟩ := hop
  obtain ⟨s, hs, hsn, hsd⟩ := hopS
  have hrs : r.mapCoefficients φ = s := by
    apply mapCoefficients_eq φ _ hrn hsn
    · rw [hsd, hrd, hlaw, denote_mapCoefficients φ hf, denote_mapCoefficients φ hg]
    · rw [isUnivariate_of_combine hs, isUnivariate_of_combine hr, isUnivariate_mapCoefficients]
  exact ⟨r, hr, hrs ▸ hs⟩

private theorem exists_mapCoefficients_mulTerm {u : Monomial} (hu : u.length = f.nvars) (c : R) :
    ∃ r, f.mulTerm u c = .ok r ∧
      (f.mapCoefficients φ).mulTerm u (φ c) = .ok (r.mapCoefficients φ) := by
  obtain ⟨d, rfl⟩ := exists_ofExponents hu
  obtain ⟨r, hr, hrn, hrd⟩ := mulTerm_ok (p := f) rfl d c
  obtain ⟨s, hs, hsn, hsd⟩ := mulTerm_ok (nvars_mapCoefficients φ f) d (φ c)
  have hrs : r.mapCoefficients φ = s := by
    apply mapCoefficients_eq φ _ hrn hsn
    · rw [hsd, hrd, denote_mapCoefficients φ rfl, map_mul, MvPolynomial.map_monomial]
    · rw [isUnivariate_of_mulTerm hs, isUnivariate_of_mulTerm hr, isUnivariate_mapCoefficients]
  exact ⟨r, hr, hrs ▸ hs⟩

private theorem exists_evaluateAt_mapCoefficients {point : List R}
    (hpoint : point.length = f.nvars) : ∃ a, f.evaluateAt point = .ok a ∧
      (f.mapCoefficients φ).evaluateAt (point.map φ) = .ok (φ a) := by
  have hvalue := evaluateAt_ofFn hpoint.symm point.get
  have himage := evaluateAt_ofFn ((nvars_mapCoefficients φ f).trans hpoint.symm)
    fun i => φ (point.get i)
  have hmap : (List.ofFn fun i => φ (point.get i)) = point.map φ := by
    rw [← Function.comp_def, ← List.map_ofFn, List.ofFn_get]
  rw [List.ofFn_get] at hvalue
  refine ⟨_, hvalue, ?_⟩
  rw [← hmap, himage, denote_mapCoefficients φ hpoint.symm, MvPolynomial.eval_map,
    MvPolynomial.eval₂_comp]
  rfl

end Homomorphism

section Conversion

variable [Coefficient R] [Coefficient S]

/-- Where the coefficients convert, the polynomial over the other domain is there. -/
theorem setDomain_ok {ψ : R → S} {p : Polynomial R}
    (hψ : ∀ t ∈ p.terms, convert t.2 = .ok (ψ t.2)) :
    p.setDomain = .ok (p.mapCoefficients ψ) := by
  have hcs : p.scalarTerms.mapM (fun t => ofOperand? (R := S) (some t.2)) =
      .ok (p.terms.map fun t => ψ t.2) := by
    rw [scalarTerms, List.mapM_map]
    exact mapM_ok hψ
  rw [setDomain, hcs]
  cases p with
  | univariate p =>
    rw [mapCoefficients, ← List.zip_map']
    rfl
  | multinomial p =>
    rw [mapCoefficients, ← List.zip_map']
    rfl

private theorem setDomain_setDomain (φ : R → S) (ψ : S → R) (hzero : φ 0 = 0)
    (hφ : ∀ c, convert c = .ok (φ c)) (hψ : ∀ c, convert (φ c) = .ok (ψ (φ c)))
    (hinverse : ∀ c, ψ (φ c) = c) (p : Polynomial R) :
    (do (← p.setDomain (S := S)).setDomain) = .ok p := by
  have hback : ∀ t ∈ (p.mapCoefficients φ).terms, convert t.2 = .ok (ψ t.2) := by
    intro t ht
    rw [← (mem_terms.mp ht).1, coefficient_mapCoefficients hzero]
    exact hψ _
  have hp : (p.mapCoefficients φ).mapCoefficients ψ = p := by
    apply eq_of_coefficient
    · rw [isUnivariate_mapCoefficients, isUnivariate_mapCoefficients]
    · rw [nvars_mapCoefficients, nvars_mapCoefficients]
    · intro m
      rw [coefficient_mapCoefficients (by rw [← hzero, hinverse]),
        coefficient_mapCoefficients hzero, hinverse]
  rw [setDomain_ok fun t _ => hφ t.2]
  exact (setDomain_ok hback).trans (congrArg Except.ok hp)

end Conversion

/-- The change of the domain commutes with all operations. -/
structure DomainHom (R S : Type) [CommRing R] [DecidableEq R] [Coefficient R] [CommRing S]
    [DecidableEq S] [Coefficient S] : Prop where
  add : ∀ f g : Polynomial R, f.nvars = g.nvars →
    SameResult (do (← f.add g).setDomain (S := S)) (do (← f.setDomain).add (← g.setDomain))
  sub : ∀ f g : Polynomial R, f.nvars = g.nvars →
    SameResult (do (← f.sub g).setDomain (S := S)) (do (← f.setDomain).sub (← g.setDomain))
  mul : ∀ f g : Polynomial R, f.nvars = g.nvars →
    SameResult (do (← f.mul g).setDomain (S := S)) (do (← f.setDomain).mul (← g.setDomain))
  neg : ∀ f : Polynomial R, SameResult ((-f).setDomain (S := S)) (do return -(← f.setDomain))
  power : ∀ (f : Polynomial R) (k : ℕ),
    SameResult ((f.power k).setDomain (S := S)) (do return (← f.setDomain).power k)
  /-- The coefficient of the term is any operand that stands for it. -/
  mulTerm : ∀ (f : Polynomial R) (u : Monomial) (a a' : Option Scalar) (c : R),
    u.length = f.nvars → ofOperand? a = .ok c → ofOperand? a' = convert (S := S) c →
    SameResult (do (← f.mulTermBy u.toInts a).setDomain (S := S))
      (do (← f.setDomain).mulTermBy u.toInts a')
  evaluate : ∀ (f : Polynomial R) (point : List R), point.length = f.nvars →
    SameResult (do convert (S := S) (← f.evaluateAt point))
      (do (← f.setDomain).evaluateAt (← point.mapM convert))

section Commutation

variable [Coefficient R] [Coefficient S]

private theorem mulTermBy_eq {p : Polynomial R} {u : Monomial} {a : Option Scalar} {c : R}
    (hu : u.length = p.nvars) (ha : ofOperand? a = .ok c) :
    p.mulTermBy u.toInts a = p.mulTerm u c := by
  rw [mulTermBy, ofInts?_toInts, ha]
  change (p.checkMonomial u >>= fun _ => _) = _
  rw [checkMonomial_ok hu]
  rfl

private theorem domainHom_of_convert (φ : R →+* S) (hφ : ∀ c, convert c = .ok (φ c)) :
    DomainHom R S := by
  have hset (f : Polynomial R) : f.setDomain = .ok (f.mapCoefficients φ) :=
    setDomain_ok fun t _ => hφ t.2
  have hn {f : Polynomial R} {n : ℕ} (hf : f.nvars = n) : (f.mapCoefficients φ).nvars = n :=
    (nvars_mapCoefficients φ f).trans hf
  have hsame {x : Except Failure (Polynomial R)} {y : Except Failure (Polynomial S)}
      (h : ∃ r, x = .ok r ∧ y = .ok (r.mapCoefficients φ)) :
      SameResult (do (← x).setDomain) y := by
    obtain ⟨r, rfl, hy⟩ := h
    exact ⟨_, hset r, hy⟩
  exact {
    add := fun f g hfg => by
      rw [hset, hset]
      exact hsame (exists_mapCoefficients_combine φ (· + ·) (map_add _)
        (add_ok rfl hfg.symm) (add_ok (hn rfl) (hn hfg.symm)) rfl hfg.symm)
    sub := fun f g hfg => by
      rw [hset, hset]
      exact hsame (exists_mapCoefficients_combine φ (· - ·) (map_sub _)
        (sub_ok rfl hfg.symm) (sub_ok (hn rfl) (hn hfg.symm)) rfl hfg.symm)
    mul := fun f g hfg => by
      rw [hset, hset]
      exact hsame (exists_mapCoefficients_combine φ (· * ·) (map_mul _)
        (mul_ok rfl hfg.symm) (mul_ok (hn rfl) (hn hfg.symm)) rfl hfg.symm)
    neg := fun f => by
      rw [hset, hset]
      exact ⟨_, congrArg Except.ok (mapCoefficients_neg φ f), rfl⟩
    power := fun f k => by
      rw [hset, hset]
      exact ⟨_, congrArg Except.ok (mapCoefficients_power φ f k), rfl⟩
    mulTerm := fun f u a a' c hu ha ha' => by
      rw [mulTermBy_eq hu ha, hset]
      apply hsame
      obtain ⟨r, hr, hr'⟩ := exists_mapCoefficients_mulTerm φ hu c
      refine ⟨r, hr, ?_⟩
      exact (mulTermBy_eq (hu.trans (hn rfl).symm) (ha'.trans (hφ c))).trans hr'
    evaluate := fun f point hpoint => by
      obtain ⟨a, ha, ha'⟩ := exists_evaluateAt_mapCoefficients φ hpoint
      rw [ha, hset, mapM_ok fun c _ => hφ c]
      exact ⟨_, hφ a, ha'⟩ }

end Commutation

end Polynomial

open PolyIdeal.Polynomial

/-- The integers are a domain whose polynomials are changed to those over the rationals and to those
modulo `m` by homomorphisms. From the rationals they come back as they were, and so does whatever
is brought to the integers from the residues. -/
structure IntegerDomainChange (m : ℕ) [NeZero m] : Prop where
  toRationals : DomainHom ℤ ℚ
  toResidues : DomainHom ℤ (Residue m)
  fromRationals : ∀ f : Polynomial ℤ, (do (← f.setDomain (S := ℚ)).setDomain) = .ok f
  fromResidues : ∀ f : Polynomial (Residue m), (do (← f.setDomain (S := ℤ)).setDomain) = .ok f

/-- Changing the domain of polynomials over the integers is a homomorphism. -/
theorem integerDomainChange (m : ℕ) [NeZero m] : IntegerDomainChange m where
  toRationals := domainHom_of_convert (Int.castRingHom ℚ) Coefficient.convert_integer
  toResidues := domainHom_of_convert (Int.castRingHom (Residue m)) Coefficient.convert_integer
  fromRationals :=
    setDomain_setDomain Int.cast Rat.num Int.cast_zero Coefficient.convert_integer (fun _ => rfl)
      Rat.num_intCast
  fromResidues :=
    setDomain_setDomain Residue.centered (Residue.ofInt m) rfl (fun _ => rfl) (fun _ => rfl)
      Residue.ofInt_centered

/-- The residues modulo 6 have zero divisors, so products over the integers lose terms there. -/
theorem integerDomainChange_six : IntegerDomainChange 6 :=
  integerDomainChange 6

end PolyIdeal
