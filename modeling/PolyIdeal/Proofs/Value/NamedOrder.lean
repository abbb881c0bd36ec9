import PolyIdeal.Proofs.Value.IdealResidue

/-!
# Orders by name

Every function of the engine looks up the name of an order before it does anything else, so that the
name is as good as the order. A residue looks it up as well, for its representative, but it keeps
the name: residues by name get along with each other as those by the order do, but not with those.
-/

namespace PolyIdeal

open PolyIdeal.Polynomial FieldDomain

/-- The functions of the engine do the same for two choices of an order, whether they succeed or
fail. -/
structure SameEngine (c c' : OrderChoice) : Prop where
  reducer : ∀ tolerance basis, (c.resolve >>= fun o => AnyReducer.create o tolerance basis) =
    c'.resolve >>= fun o => AnyReducer.create o tolerance basis
  reduce : ∀ (f : AnyPolynomial) basis tolerance,
    f.reduce basis c tolerance = f.reduce basis c' tolerance
  groebnerBasis : ∀ generators config,
    AnyBasis.groebnerBasis generators c config = AnyBasis.groebnerBasis generators c' config
  isGroebnerBasis : ∀ basis tolerance,
    AnyBasis.isGroebnerBasis basis c tolerance = AnyBasis.isGroebnerBasis basis c' tolerance
  idealContains : ∀ basis f tolerance,
    AnyBasis.idealContains basis f c tolerance = AnyBasis.idealContains basis f c' tolerance
  sameIdeal : ∀ generators₁ generators₂ config,
    AnyBasis.sameIdeal generators₁ generators₂ c config =
      AnyBasis.sameIdeal generators₁ generators₂ c' config

private theorem sameEngine_of_resolve {c c' : OrderChoice} (h : c.resolve = c'.resolve) :
    SameEngine c c' := by
  have hgroebner (generators : List AnyPolynomial) (config : Config) :
      AnyBasis.groebnerBasis generators c config = AnyBasis.groebnerBasis generators c' config := by
    rw [AnyBasis.groebnerBasis, AnyBasis.groebnerBasis, h]
  exact
    { reducer := fun tolerance basis => by rw [h]
      reduce := fun f basis tolerance => by rw [AnyPolynomial.reduce, AnyPolynomial.reduce, h]
      groebnerBasis := hgroebner
      isGroebnerBasis := fun basis tolerance => by
        rw [AnyBasis.isGroebnerBasis, AnyBasis.isGroebnerBasis, h]
      idealContains := fun basis f tolerance => by
        rw [AnyBasis.idealContains, AnyBasis.idealContains, h]
      sameIdeal := fun generators₁ generators₂ config => by
        rw [AnyBasis.sameIdeal, AnyBasis.sameIdeal, hgroebner, hgroebner] }

private theorem accepts_of_named {name : String} {order : Order} (h : Order.named? name = .ok order)
    (n : ℕ) : order.accepts n = true := by
  unfold Order.named? at h
  split at h <;> cases h <;> rfl

private theorem OrderChoice.same_self (c : OrderChoice) : c.same c = true := by
  cases c <;> simp [OrderChoice.same, Order.same]

namespace IdealResidue

section Choice

variable {R : Type} [CommRing R] [DecidableEq R]

/-- The residue with its order chosen in another way. -/
private def withChoice (choice : OrderChoice) (c : IdealResidue R) : IdealResidue R :=
  { c with order := choice }

variable {choice : OrderChoice} {order : Order} {c d e : IdealResidue R}

private theorem same_withChoice (h : c.order.same d.order = true) :
    (c.withChoice choice).same (d.withChoice choice) = c.same d := by
  simp only [same, withChoice, h, OrderChoice.same_self]

private theorem not_same_of_order (h : c.order.same d.order = false) : c.same d = false := by
  simp only [same, h, Bool.and_false, Bool.false_and]

variable [Coefficient R]

private theorem onIdealResidues_eq (op : Operator) (c d : IdealResidue R) :
    op.onIdealResidues c d = (do
      Traced.lift (c.check d)
      c.classOf (← Traced.lift (op.onPolynomials c.polynomial d.polynomial))) := by
  cases op <;> rfl

private theorem onIdealResidues_of_order (h : c.order.same d.order = false) (op : Operator) :
    (op.onIdealResidues c d).result = .error (.invalid .mixedIdeals) := by
  have hcheck : c.check d = .error (.invalid .mixedIdeals) := by
    rw [check, h, Bool.and_false]
    rfl
  rw [onIdealResidues_eq]
  exact Traced.result_lift_bind_error hcheck _

variable (hchoice : choice.resolve = .ok order)
include hchoice

private theorem of_withChoice {f : Polynomial R} {basis : List (Polynomial R)}
    {tolerance : Option Tolerance} (hc : (of f basis (.given order) tolerance).result = .ok c) :
    (of f basis choice tolerance).result = .ok (c.withChoice choice) := by
  obtain ⟨o, ho, hc⟩ := Traced.exists_of_result_bind hc
  obtain rfl := Except.ok.inj ho
  obtain ⟨r, hr, hc⟩ := Traced.exists_of_result_bind hc
  obtain rfl := Except.ok.inj hc
  rw [of, Traced.result_lift_bind hchoice, Traced.result_bind hr]
  rfl

private theorem onIdealResidues_withChoice {op : Operator} (hc : c.order = .given order)
    (he : (op.onIdealResidues c d).result = .ok e) :
    (op.onIdealResidues (c.withChoice choice) (d.withChoice choice)).result =
      .ok (e.withChoice choice) := by
  rw [onIdealResidues_eq] at he ⊢
  obtain ⟨_, hcheck, he⟩ := Traced.exists_of_result_bind he
  obtain ⟨r, hr, he⟩ := Traced.exists_of_result_bind he
  have hcheck' : (c.withChoice choice).check (d.withChoice choice) = .ok () := by
    have hbasis : sameBasis c.basis d.basis = true := by
      have hcheck : c.check d = .ok () := hcheck
      rw [check] at hcheck
      split at hcheck
      · rename_i hsame
        exact (Bool.and_eq_true_iff.mp hsame).1
      · cases hcheck
    rw [check, withChoice, withChoice, hbasis, OrderChoice.same_self]
    rfl
  rw [classOf, hc] at he
  rw [Traced.result_lift_bind hcheck']
  exact (Traced.result_bind hr _).trans (of_withChoice hchoice he)

end Choice

end IdealResidue

variable {D : Domain} [FieldDomain D] {n : ℕ}

/-- The residue of a polynomial in `n` variables modulo a basis, by a choice of order. -/
def ResidueOf (n : ℕ) (basis : List (Polynomial D.Elem)) (choice : OrderChoice)
    (f : Polynomial D.Elem) (c : AnyIdealResidue) : Prop :=
  f.nvars = n ∧ (AnyIdealResidue.create ⟨D, f⟩ (ofDomain D basis) choice none).result = .ok c

/-- How residues modulo a Groebner basis behave when some are made with an order and others with its
name. Both kinds hold the same representatives, and each kind is the quotient ring. But residues of
different kinds are never the same, and operators refuse them. -/
structure NamesStayApart (n : ℕ) (name : String) (order : Order)
    (I : Ideal (MvPolynomial (Fin n) D.Elem)) (basis : List (Polynomial D.Elem)) : Prop where
  exists_residues : ∀ f : Polynomial D.Elem, f.nvars = n → ∃ c c',
    ResidueOf n basis (.named name) f c ∧ ResidueOf n basis (.given order) f c' ∧
      c = { c' with order := .named name }
  representatives : ∀ f g c d, ResidueOf n basis (.named name) f c →
    ResidueOf n basis (.given order) g d →
      (c.polynomial.same d.polynomial = true ↔ f.denote n - g.denote n ∈ I)
  not_same : ∀ f g c d, ResidueOf n basis (.named name) f c →
    ResidueOf n basis (.given order) g d →
      (Value.idealResidue c).same (.idealResidue d) = false ∧
      (Value.idealResidue d).same (.idealResidue c) = false
  refused : ∀ op f g c d, ResidueOf n basis (.named name) f c →
    ResidueOf n basis (.given order) g d →
      (Value.combine op (.idealResidue c) (.idealResidue d)).result =
        .error (.invalid .mixedIdeals) ∧
      (Value.combine op (.idealResidue d) (.idealResidue c)).result =
        .error (.invalid .mixedIdeals)
  same_iff : ∀ f g c d, ResidueOf n basis (.named name) f c →
    ResidueOf n basis (.named name) g d →
      ((Value.idealResidue c).same (.idealResidue d) = true ↔ f.denote n - g.denote n ∈ I)
  combine : ∀ op f g c d c' d', ResidueOf n basis (.named name) f c →
    ResidueOf n basis (.named name) g d → ResidueOf n basis (.given order) f c' →
    ResidueOf n basis (.given order) g d' → ∃ e e',
      (Value.combine op (.idealResidue c) (.idealResidue d)).result = .ok (.idealResidue e) ∧
      (Value.combine op (.idealResidue c') (.idealResidue d')).result = .ok (.idealResidue e') ∧
      e = { e' with order := .named name }

section Residues

variable {name : String} {order : Order} {I : Ideal (MvPolynomial (Fin n) D.Elem)}
  {basis : List (Polynomial D.Elem)} (hI : IsGroebnerBasisOf order n I basis)
  (h : order.accepts n = true) {choice : OrderChoice}
include hI

private theorem ResidueOf.represents (hchoice : choice.resolve = .ok order) {f : Polynomial D.Elem}
    {c : AnyIdealResidue} (hc : ResidueOf n basis choice f c) :
    ∃ c' : IdealResidue D.Elem, (IdealResidue.of f basis (.given order) none).result = .ok c' ∧
      c = .ofDomain (c'.withChoice choice) ∧ Represents h I basis c' (f.denote n) := by
  obtain ⟨c', hc', hrep⟩ := Represents.of_ok hI h hc.1
  have hcreate := AnyIdealResidue.create_ok (IdealResidue.of_withChoice hchoice hc')
  exact ⟨c', hc', Except.ok.inj (hc.2.symm.trans hcreate), hrep⟩

private theorem namesStayApart_of_named (hname : Order.named? name = .ok order) :
    NamesStayApart n name order I basis := by
  have h := accepts_of_named hname n
  have hnamed : (OrderChoice.named name).resolve = .ok order := hname
  have hgiven : (OrderChoice.given order).resolve = .ok order := rfl
  have happart (c d : IdealResidue D.Elem) :
      (c.withChoice (.named name)).order.same (d.withChoice (.given order)).order = false ∧
      (d.withChoice (.given order)).order.same (c.withChoice (.named name)).order = false :=
    ⟨rfl, rfl⟩
  exact
    { exists_residues := by
        intro f hf
        obtain ⟨c, hc, -⟩ := Represents.of_ok hI h hf
        exact ⟨_, _, ⟨hf, AnyIdealResidue.create_ok (IdealResidue.of_withChoice hnamed hc)⟩,
          ⟨hf, AnyIdealResidue.create_ok (IdealResidue.of_withChoice hgiven hc)⟩, rfl⟩
      representatives := by
        intro f g c d hc hd
        obtain ⟨c', -, rfl, hc'⟩ := hc.represents hI h hnamed
        obtain ⟨d', -, rfl, hd'⟩ := hd.represents hI h hgiven
        rw [← hc'.agrees_iff hI hd', ← AnyPolynomial.same_self]
        rfl
      not_same := by
        intro f g c d hc hd
        obtain ⟨c', -, rfl, -⟩ := hc.represents hI h hnamed
        obtain ⟨d', -, rfl, -⟩ := hd.represents hI h hgiven
        have hcd := IdealResidue.not_same_of_order (happart c' d').1
        have hdc := IdealResidue.not_same_of_order (happart c' d').2
        rw [← AnyIdealResidue.same_ofDomain] at hcd hdc
        rw [Value.same, Value.same]
        exact ⟨hcd, hdc⟩
      refused := by
        intro op f g c d hc hd
        obtain ⟨c', -, rfl, -⟩ := hc.represents hI h hnamed
        obtain ⟨d', -, rfl, -⟩ := hd.represents hI h hgiven
        have hcd := IdealResidue.onIdealResidues_of_order (happart c' d').1 op
        have hdc := IdealResidue.onIdealResidues_of_order (happart c' d').2 op
        exact ⟨Traced.result_bind_error (AnyIdealResidue.combine_error hcd) _,
          Traced.result_bind_error (AnyIdealResidue.combine_error hdc) _⟩
      same_iff := by
        intro f g c d hc hd
        obtain ⟨c', -, rfl, hc'⟩ := hc.represents hI h hnamed
        obtain ⟨d', -, rfl, hd'⟩ := hd.represents hI h hnamed
        have horder : c'.order.same d'.order = true := by
          rw [hc'.order_eq, hd'.order_eq, OrderChoice.same_self]
        rw [← hc'.same_iff hI hd', ← IdealResidue.same_withChoice horder,
          ← AnyIdealResidue.same_ofDomain, Value.same]
      combine := by
        intro op f g c d c₁ d₁ hc hd hc₁ hd₁
        obtain ⟨c', hcof, rfl, hc'⟩ := hc.represents hI h hnamed
        obtain ⟨d', hdof, rfl, hd'⟩ := hd.represents hI h hnamed
        obtain ⟨_, hcof', rfl, -⟩ := hc₁.represents hI h hgiven
        obtain ⟨_, hdof', rfl, -⟩ := hd₁.represents hI h hgiven
        obtain rfl := Except.ok.inj (hcof.symm.trans hcof')
        obtain rfl := Except.ok.inj (hdof.symm.trans hdof')
        obtain ⟨e, he, -⟩ := hc'.combine_ok hI op hd'
        have hnamed' := IdealResidue.onIdealResidues_withChoice hnamed hc'.order_eq he
        have hgiven' := IdealResidue.onIdealResidues_withChoice hgiven hc'.order_eq he
        exact ⟨_, _, Traced.result_bind (AnyIdealResidue.combine_ok hnamed') _,
          Traced.result_bind (AnyIdealResidue.combine_ok hgiven') _, rfl⟩ }

end Residues

/-- For every function of the engine the name of an order is the order. For residues it is only as
long as all of them are made with it. -/
theorem orders_by_name {name : String} {order : Order} (hname : Order.named? name = .ok order)
    {I : Ideal (MvPolynomial (Fin n) D.Elem)} {basis : List (Polynomial D.Elem)}
    (hI : IsGroebnerBasisOf order n I basis) :
    SameEngine (.named name) (.given order) ∧ NamesStayApart n name order I basis :=
  ⟨sameEngine_of_resolve hname, namesStayApart_of_named hI hname⟩

theorem orders_by_name_residues :
    SameEngine (.named "degrevlex") (.given .degRevlex) ∧
      NamesStayApart (D := .residues 3) 1 "degrevlex" .degRevlex
        (multiples 1 (.univariate (.ofCoefficients [1, 0, 1])))
        [.univariate (.ofCoefficients [1, 0, 1])] :=
  orders_by_name rfl (isGroebnerBasisOf_multiples rfl rfl (by decide))

/-- The class of zero modulo `X` over the rationals, by the order and by its name. -/
theorem not_same_by_name : ¬ ∀ (D : Domain) [FieldDomain D] (n : ℕ) (name : String) (order : Order),
    Order.named? name = .ok order →
    ∀ (I : Ideal (MvPolynomial (Fin n) D.Elem)) (basis : List (Polynomial D.Elem)),
      IsGroebnerBasisOf order n I basis →
      ∀ f g c d, ResidueOf n basis (.named name) f c → ResidueOf n basis (.given order) g d →
        ((Value.idealResidue c).same (.idealResidue d) = true ↔ f.denote n - g.denote n ∈ I) := by
  intro hall
  have haccepts : Order.lex.accepts 1 = true := rfl
  have hname : Order.named? "lex" = .ok .lex := rfl
  have hI := isGroebnerBasisOf_multiples (D := .rationals) haccepts
    (g := .univariate (.ofCoefficients [0, 1])) rfl (by decide)
  have hapart := namesStayApart_of_named hI hname
  obtain ⟨c, d, hc, hd, -⟩ := hapart.exists_residues (.univariate (.ofCoefficients [0, 1])) rfl
  have hsame := (hall .rationals 1 "lex" .lex hname _ _ hI _ _ c d hc hd).mpr (by simp)
  rw [(hapart.not_same _ _ c d hc hd).1] at hsame
  cases hsame

end PolyIdeal
