import PolyIdeal.Proofs.Coefficient.Integer
import PolyIdeal.Proofs.Traced
import PolyIdeal.Value.Equality
import PolyIdeal.Value.Operators

/-!
# Values over one domain

Where all polynomials are over one domain, they are compared, reduced and combined as values as they
are over that domain.
-/

namespace PolyIdeal

variable {D : Domain}

theorem same_toScalar (a b : D.Elem) :
    (Coefficient.toScalar a).same (Coefficient.toScalar b) = (a == b) := by
  cases D with
  | integers => rfl
  | rationals => rfl
  | reals =>
    show ((a : BinaryReal).value == (b : BinaryReal).value) = ((a : BinaryReal) == b)
    cases a
    cases b
    rw [Bool.eq_iff_iff, beq_iff_eq, beq_iff_eq, BinaryReal.mk.injEq]
  | residues n =>
    show (Residue.ofInt n (Residue.centered b) == a) = ((a : Residue n) == b)
    rw [Residue.ofInt_centered]
    exact BEq.comm

namespace AnyPolynomial

@[simp] theorem inDomain?_self (p : Polynomial D.Elem) :
    (⟨D, p⟩ : AnyPolynomial).inDomain? D = some p :=
  dif_pos rfl

@[simp] theorem allInDomain?_ofDomain (ps : List (Polynomial D.Elem)) :
    allInDomain? D (ofDomain D ps) = some ps := by
  induction ps with
  | nil => rfl
  | cons p ps ih =>
    have hcons : allInDomain? D (ofDomain D (p :: ps)) = (do
        let q ← (⟨D, p⟩ : AnyPolynomial).inDomain? D
        let qs ← allInDomain? D (ofDomain D ps)
        return q :: qs) := List.mapM_cons
    rw [hcons, ih, inDomain?_self]
    rfl

private theorem all_zip_scalarTerms (ss ts : List (Monomial × D.Elem)) :
    ((ss.map fun t => (t.1, Coefficient.toScalar t.2)).length ==
        (ts.map fun t => (t.1, Coefficient.toScalar t.2)).length &&
      ((ss.map fun t => (t.1, Coefficient.toScalar t.2)).zip
        (ts.map fun t => (t.1, Coefficient.toScalar t.2))).all fun (s, t) =>
          s.1 == t.1 && s.2.same t.2) = (ss == ts) := by
  induction ss generalizing ts with
  | nil => cases ts <;> rfl
  | cons s ss ih =>
    cases ts with
    | nil => rfl
    | cons t ts =>
      have htail := ih ts
      simp only [List.length_map] at htail
      simp only [List.map_cons, List.length_cons, List.length_map, List.zip_cons_cons,
        List.all_cons, same_toScalar, List.cons_beq_cons, ← htail]
      rw [Bool.eq_iff_iff]
      simp only [Bool.and_eq_true, beq_iff_eq, Nat.succ_inj, Prod.ext_iff]
      exact and_left_comm

@[simp] theorem same_self (p q : Polynomial D.Elem) :
    (⟨D, p⟩ : AnyPolynomial).same ⟨D, q⟩ = p.agrees q := by
  have hterms := all_zip_scalarTerms p.terms q.terms
  rw [Polynomial.agrees, ← hterms, ← Bool.and_assoc]
  rfl

@[simp] theorem sameLists_ofDomain (ps qs : List (Polynomial D.Elem)) :
    sameLists (ofDomain D ps) (ofDomain D qs) = sameBasis ps qs := by
  rw [sameLists, sameBasis, ofDomain, ofDomain, List.length_map, List.length_map, List.zip_map,
    List.all_map]
  congr 1
  apply congrArg (List.all (ps.zip qs))
  funext pq
  exact same_self pq.1 pq.2

theorem operand_ok {p q : Polynomial D.Elem} (hnvars : p.nvars = q.nvars) :
    operand ⟨D, p⟩ ⟨D, q⟩ = .ok q := by
  rw [operand, inDomain?_self]
  exact if_neg (not_not_intro hnvars)

end AnyPolynomial

theorem AnyPolynomial.combine_ok {op : Operator} {p q r : Polynomial D.Elem}
    (hnvars : p.nvars = q.nvars) (hr : op.onPolynomials p q = .ok r) :
    AnyPolynomial.combine op ⟨D, p⟩ ⟨D, q⟩ = .ok ⟨D, r⟩ := by
  rw [AnyPolynomial.combine, AnyPolynomial.operand_ok hnvars]
  show (op.onPolynomials p q >>= fun r => _) = _
  rw [hr]
  rfl

private theorem Traced.ofBasis_ok {α : Type} {t : Traced (Event D.Elem) α} {a : α}
    (ht : t.result = .ok a) : t.ofBasis.result = .ok a := ht

private theorem homogeneous?_ofDomain (g : Polynomial D.Elem) (gs : List (Polynomial D.Elem)) :
    homogeneous? (ofDomain D (g :: gs)) = some ⟨D, g :: gs⟩ := by
  show (AnyPolynomial.allInDomain? D (ofDomain D (g :: gs))).map _ = _
  rw [AnyPolynomial.allInDomain?_ofDomain]
  rfl

theorem AnyBasis.groebnerBasis_ok {g : Polynomial D.Elem} {gs basis : List (Polynomial D.Elem)}
    {order : Order} {config : Config}
    (h : (PolyIdeal.groebnerBasis (g :: gs) order config).result = .ok basis) :
    (AnyBasis.groebnerBasis (ofDomain D (g :: gs)) (.given order) config).result =
      .ok (ofDomain D basis) := by
  have hresolve : (OrderChoice.given order).resolve = .ok order := rfl
  rw [AnyBasis.groebnerBasis, Traced.result_lift_bind hresolve]
  dsimp only
  rw [homogeneous?_ofDomain]
  refine (Traced.result_bind (Traced.result_pure _) _).trans ?_
  exact Traced.result_bind (Traced.ofBasis_ok h) _

namespace AnyIdealResidue

variable {basis : List (Polynomial D.Elem)} {order : OrderChoice} {tolerance : Option Tolerance}

@[simp] theorem inDomain?_ofDomain (c : IdealResidue D.Elem) :
    (ofDomain c).inDomain? D = some c := by
  rw [inDomain?, ofDomain]
  simp

theorem create_ok {f : Polynomial D.Elem} {c : IdealResidue D.Elem}
    (hc : (IdealResidue.of f basis order tolerance).result = .ok c) :
    (create ⟨D, f⟩ (PolyIdeal.ofDomain D basis) order tolerance).result = .ok (ofDomain c) := by
  obtain ⟨o, ho, hc⟩ := Traced.exists_of_result_bind hc
  obtain ⟨r, hr, hc⟩ := Traced.exists_of_result_bind hc
  obtain rfl := Except.ok.inj hc
  have horder : order.resolve = .ok o := ho
  have hreduce : (AnyPolynomial.reduce ⟨D, f⟩ (PolyIdeal.ofDomain D basis) order
      tolerance).result = .ok ⟨D, r⟩ := by
    rw [AnyPolynomial.reduce, Traced.result_lift_bind horder,
      AnyPolynomial.allInDomain?_ofDomain]
    exact Traced.result_bind (Traced.ofBasis_ok hr) _
  rw [create, Traced.result_bind hreduce]
  rfl

theorem classOf_ok {c e : IdealResidue D.Elem} {f : Polynomial D.Elem}
    (he : (c.classOf f).result = .ok e) :
    ((ofDomain c).classOf ⟨D, f⟩).result = .ok (ofDomain e) :=
  create_ok he

theorem combine_ok {op : Operator} {c d e : IdealResidue D.Elem}
    (he : (op.onIdealResidues c d).result = .ok e) :
    (combine op (ofDomain c) (ofDomain d)).result = .ok (ofDomain e) := by
  have hc : (ofDomain c).inDomain? (ofDomain c).polynomial.domain = some c :=
    inDomain?_ofDomain c
  have hd : (ofDomain d).inDomain? (ofDomain c).polynomial.domain = some d :=
    inDomain?_ofDomain d
  rw [combine, hc, hd]
  exact Traced.result_bind (Traced.ofBasis_ok he) _

theorem combine_error {op : Operator} {c d : IdealResidue D.Elem} {e : Failure}
    (he : (op.onIdealResidues c d).result = .error e) :
    (combine op (ofDomain c) (ofDomain d)).result = .error e := by
  have hc : (ofDomain c).inDomain? (ofDomain c).polynomial.domain = some c :=
    inDomain?_ofDomain c
  have hd : (ofDomain d).inDomain? (ofDomain c).polynomial.domain = some d :=
    inDomain?_ofDomain d
  rw [combine, hc, hd]
  exact Traced.result_bind_error (t := (op.onIdealResidues c d).ofBasis) he _

theorem neg_ok {c e : IdealResidue D.Elem} (he : c.neg.result = .ok e) :
    (ofDomain c).neg.result = .ok (ofDomain e) := by
  have hc : (ofDomain c).inDomain? (ofDomain c).polynomial.domain = some c :=
    inDomain?_ofDomain c
  rw [neg, hc]
  exact Traced.result_bind (Traced.ofBasis_ok he) _

@[simp] theorem same_ofDomain (c d : IdealResidue D.Elem) :
    (ofDomain c).same (ofDomain d) = c.same d := by
  rw [same, sameIdeal, IdealResidue.same]
  simp only [ofDomain, AnyPolynomial.sameLists_ofDomain, AnyPolynomial.same_self]

end AnyIdealResidue

end PolyIdeal
