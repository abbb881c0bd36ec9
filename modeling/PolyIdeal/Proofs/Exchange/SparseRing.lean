import PolyIdeal.Exchange.SparseRing
import PolyIdeal.Proofs.Basis.IdealResidue
import PolyIdeal.Proofs.Builder.Build

/-!
# Exchange with sparse rings

An element of a sparse ring is a finite map, and its terms may come in any order. The builder makes
the polynomial that stands for the element, and the terms of a polynomial are those of the element
that it stands for. Nothing is lost either way, and operators do the same on both sides.
-/

namespace PolyIdeal

open Function Monomial PolyIdeal.Polynomial

namespace Builder

variable {R : Type} [CommRing R]

private theorem foldl_update_eq {terms : List (Monomial × R)} (hn : (terms.map Prod.fst).Nodup)
    {f : Monomial → R} (hf : ∀ t ∈ terms, f t.1 = 0) (m : Monomial) :
    terms.foldl (fun f t => update f t.1 t.2) f m = f m + sumAt terms m := by
  induction terms generalizing f with
  | nil => exact (add_zero _).symm
  | cons t terms ih =>
    obtain ⟨ht, hn⟩ := List.nodup_cons.mp hn
    obtain ⟨htzero, hzero⟩ := List.forall_mem_cons.mp hf
    have hupdate : ∀ s ∈ terms, update f t.1 t.2 s.1 = 0 := by
      intro s hs
      have hne : s.1 ≠ t.1 := fun h => ht (h ▸ List.mem_map_of_mem hs)
      rw [update_of_ne hne, hzero s hs]
    rw [List.foldl_cons, ih hn hupdate, sumAt_cons, ← add_assoc]
    by_cases hm : m = t.1
    · rw [hm, update_self, if_pos rfl, htzero, zero_add]
    · rw [update_of_ne hm, if_neg (Ne.symm hm), add_zero]

private theorem foldlM_assign [DecidableEq R] {terms : List (Monomial × R)} {b : Builder R}
    {f : Monomial → R} (hb : b.Holds f) (hl : ∀ t ∈ terms, t.1.length = b.nvars) :
    ∃ b' : Builder R,
      (terms.map fun t => (t.1.toInts, t.2)).foldlM
        (fun b (m, c) => do return b.assign (← b.monomial? m) c) b = Except.ok b' ∧
      b'.nvars = b.nvars ∧ b'.Holds (terms.foldl (fun f t => update f t.1 t.2) f) := by
  induction terms generalizing b f with
  | nil => exact ⟨b, rfl, rfl, hb⟩
  | cons t terms ih =>
    obtain ⟨ht, hl⟩ := List.forall_mem_cons.mp hl
    obtain ⟨b', hrun, hnvars, hb'⟩ := ih (hb.assign ht t.2) hl
    refine ⟨b', ?_, hnvars, hb'⟩
    rw [List.map_cons, List.foldlM_cons]
    show (b.monomial? t.1.toInts >>= fun m => _) >>= _ = _
    rw [monomial?_toInts ht]
    exact hrun

end Builder

/-- A coefficient ring whose elements stand for themselves as numbers. -/
class FaithfulCoefficient (R : Type) [Coefficient R] : Prop where
  ofScalar?_toScalar (c : R) : Coefficient.ofScalar? (Coefficient.toScalar c) = some c

namespace FaithfulCoefficient

instance : FaithfulCoefficient ℤ := ⟨fun _ => rfl⟩

instance : FaithfulCoefficient ℚ := ⟨fun _ => rfl⟩

instance {n : ℕ} : FaithfulCoefficient (Residue n) := ⟨fun c => congrArg some c.ofNat_val⟩

end FaithfulCoefficient

namespace SparseRing

variable {R : Type} [CommRing R]

section Lists

variable {n : ℕ} {F : MvPolynomial (Fin n) R} {terms : List (List ℤ × R)}

/-- Whether terms are those of an element of a ring in `n` generators, in any order. -/
def Lists (F : MvPolynomial (Fin n) R) (terms : List (List ℤ × R)) : Prop :=
  terms.Perm ((termsOf F).map fun t => (t.1.toInts, t.2))

private theorem Lists.exists_perm (h : Lists F terms) :
    ∃ l : List (Monomial × R), l.Perm (termsOf F) ∧ terms = l.map fun t => (t.1.toInts, t.2) := by
  let natural (t : List ℤ × R) : Monomial × R := (t.1.map Int.toNat, t.2)
  have hnatural (t : Monomial × R) : natural (t.1.toInts, t.2) = t := by
    simp [natural, toInts, Function.comp_def]
  refine ⟨terms.map natural, ?_, ?_⟩
  · have hperm := h.map natural
    rwa [List.map_map, show (natural ∘ fun t => (t.1.toInts, t.2)) = id from funext hnatural,
      List.map_id] at hperm
  · rw [List.map_map]
    refine terms.map_id.symm.trans (List.map_congr_left fun t ht => ?_)
    obtain ⟨s, -, rfl⟩ := List.mem_map.mp (h.subset ht)
    rw [Function.comp_apply, hnatural]
    rfl

private theorem Lists.ne_zero (h : Lists F terms) : ∀ t ∈ terms, t.2 ≠ 0 := by
  intro t ht
  obtain ⟨s, hs, rfl⟩ := List.mem_map.mp (h.subset ht)
  obtain ⟨e, he, rfl⟩ := exists_of_mem_termsOf hs
  exact MvPolynomial.mem_support_iff.mp he

private theorem Lists.filter_eq [DecidableEq R] (h : Lists F terms) :
    (terms.filter fun t => t.2 ≠ 0) = terms :=
  List.filter_eq_self.mpr fun t ht => decide_eq_true (h.ne_zero t ht)

private theorem Lists.listed_ok {ring : SparseRing} (haccepts : ring.order.accepts n = true)
    (h : Lists F terms) : ∃ terms', ring.listed terms = .ok terms' ∧ Lists F terms' := by
  have hcheck : (terms.forM fun t => ring.order.check t.1) = .ok () := by
    refine forM_ok fun t ht => ?_
    obtain ⟨s, hs, rfl⟩ := List.mem_map.mp (h.subset ht)
    exact Order.check_toInts haccepts (length_of_mem_termsOf hs)
  refine ⟨terms.mergeSort fun a b => !decide (ring.order.rank a.1 < ring.order.rank b.1), ?_,
    (List.mergeSort_perm terms _).trans h⟩
  rw [listed, hcheck]
  rfl

end Lists

variable [DecidableEq R] {ring : SparseRing} {terms : List (List ℤ × R)}
  (hpos : 0 < ring.generators)

include hpos in
/-- The polynomial of a listed element stands for it. In one generator it is a coefficient list. -/
theorem toPolynomial_ok {F : MvPolynomial (Fin ring.generators) R} (h : Lists F terms) :
    ∃ p, ring.toPolynomial terms = .ok p ∧ p.nvars = ring.generators ∧
      p.denote ring.generators = F ∧ (p.isUnivariate = true ↔ ring.generators = 1) := by
  have hcreate : Builder.create (R := R) ring.generators = .ok { nvars := ring.generators } :=
    if_neg (by omega)
  obtain ⟨l, hl, rfl⟩ := h.exists_perm
  have hlength (t : Monomial × R) (ht : t ∈ l) : t.1.length = ring.generators :=
    length_of_mem_termsOf (hl.subset ht)
  have hnodup : (l.map Prod.fst).Nodup := (hl.map Prod.fst).nodup_iff.mpr (nodup_termsOf F)
  obtain ⟨b, hrun, hnvars, hb⟩ := Builder.foldlM_assign .create hlength
  obtain ⟨p, hbuild, hp, hcoefficient⟩ := Builder.build_ok (hnvars ▸ hpos) hb.length_eq
  have hpn : p.nvars = ring.generators := hp.trans hnvars
  refine ⟨p, ?_, hpn, denote_eq hpn fun e => ?_, ?_⟩
  · rw [toPolynomial, hcreate]
    show (_ >>= Builder.build) = _
    rw [hrun]
    exact hbuild
  · rw [hcoefficient, hb.sumAt_terms, Builder.foldl_update_eq hnodup fun _ _ => rfl, sumAt_perm hl,
      ← coeff_sumOfTerms fun t ht => length_of_mem_termsOf ht, sumOfTerms_termsOf]
    exact zero_add _
  · rw [Builder.isUnivariate_of_build hbuild, hnvars]

variable [Coefficient R] [FaithfulCoefficient R]

omit [CommRing R] [DecidableEq R] in
private theorem ofOperand?_toScalar (c : R) :
    Coefficient.ofOperand? (some (Coefficient.toScalar c)) = .ok c := by
  rw [Coefficient.ofOperand?, Option.bind_some, FaithfulCoefficient.ofScalar?_toScalar]

theorem ofTerms_ok {p : Polynomial R} (hp : p.nvars = ring.generators) :
    ∃ terms, ring.ofTerms p.nvars p.scalarTerms = .ok terms ∧
      Lists (p.denote ring.generators) terms := by
  have hlists : Lists (p.denote ring.generators) (p.terms.map fun t => (t.1.toInts, t.2)) :=
    (terms_perm hp).map _
  have hconverted : p.scalarTerms.mapM (fun t => do
      return (t.1.toInts, ← Coefficient.ofOperand? (R := R) (some t.2))) =
        Except.ok (p.terms.map fun t => (t.1.toInts, t.2)) := by
    rw [scalarTerms, List.mapM_map]
    refine mapM_ok fun t _ => ?_
    rw [Function.comp_apply]
    show (Coefficient.ofOperand? (some (Coefficient.toScalar t.2)) >>= _) = _
    rw [ofOperand?_toScalar]
    rfl
  refine ⟨_, ?_, hlists⟩
  rw [ofTerms, if_neg (not_not_intro hp)]
  show (p.scalarTerms.mapM (fun t => do
      return (t.1.toInts, ← Coefficient.ofOperand? (R := R) (some t.2))) >>=
    fun converted => return converted.filter fun t => t.2 ≠ 0) = _
  rw [hconverted]
  show Except.ok (List.filter _ _) = _
  rw [hlists.filter_eq]

variable (R ring) in
omit [FaithfulCoefficient R] in
/-- The elements of a ring and the polynomials in as many variables are exchanged without loss: with
elements listed in any way, elements come back with the same terms, polynomials come back the same,
and operators do the same on both sides. -/
structure Exchanges : Prop where
  /-- The listing that the ring itself makes is one of them. -/
  listing : ring.order.accepts ring.generators = true →
    ∀ (F : MvPolynomial (Fin ring.generators) R) (terms : List (List ℤ × R)), Lists F terms →
      ∃ terms', ring.listed terms = .ok terms' ∧ Lists F terms'
  element : ∀ (F : MvPolynomial (Fin ring.generators) R) (terms : List (List ℤ × R)),
    Lists F terms → ∃ p terms', ring.toPolynomial terms = .ok p ∧
      p.nvars = ring.generators ∧ p.denote ring.generators = F ∧
      (p.isUnivariate = true ↔ ring.generators = 1) ∧
      ring.ofTerms p.nvars p.scalarTerms = .ok terms' ∧ terms'.Perm terms
  polynomial : ∀ p : Polynomial R, p.nvars = ring.generators →
    ∃ terms, ring.ofTerms p.nvars p.scalarTerms = .ok terms ∧
      Lists (p.denote ring.generators) terms ∧ ∀ terms', terms'.Perm terms →
        ∃ p', ring.toPolynomial terms' = .ok p' ∧ p'.agrees p = true
  operator : ∀ (op : Operator) (F G : MvPolynomial (Fin ring.generators) R)
    (fs gs hs : List (List ℤ × R)), Lists F fs → Lists G gs → Lists (op.apply F G) hs →
      ∃ p q r s, ring.toPolynomial fs = .ok p ∧ ring.toPolynomial gs = .ok q ∧
        ring.toPolynomial hs = .ok r ∧ op.onPolynomials p q = .ok s ∧ r.agrees s = true

include hpos in
theorem exchanges : ring.Exchanges R where
  listing haccepts _ _ h := h.listed_ok haccepts
  element F terms h := by
    obtain ⟨p, hp, hpn, rfl, hkind⟩ := toPolynomial_ok hpos h
    obtain ⟨terms', hterms', h'⟩ := ofTerms_ok hpn
    exact ⟨p, terms', hp, hpn, rfl, hkind, hterms', h'.trans h.symm⟩
  polynomial p hpn := by
    obtain ⟨terms, hterms, h⟩ := ofTerms_ok hpn
    refine ⟨terms, hterms, h, fun terms' hperm => ?_⟩
    obtain ⟨p', hp', hpn', hdenote, -⟩ := toPolynomial_ok hpos (hperm.trans h)
    exact ⟨p', hp', (agrees_iff hpn' hpn).mpr hdenote⟩
  operator op F G fs gs hs hF hG h := by
    obtain ⟨p, hp, hpn, rfl, -⟩ := toPolynomial_ok hpos hF
    obtain ⟨q, hq, hqn, rfl, -⟩ := toPolynomial_ok hpos hG
    obtain ⟨r, hr, hrn, hrd, -⟩ := toPolynomial_ok hpos h
    obtain ⟨s, hs, hsn, hsd⟩ := op.onPolynomials_ok hpn hqn
    exact ⟨p, q, r, s, hp, hq, hr, hs, (agrees_iff hrn hsn).mpr (hrd.trans hsd.symm)⟩

end SparseRing

end PolyIdeal
