import PolyIdeal.Value.Reduction

/-!
# Bases over several domains

The questions about bases for polynomials over any domain. Over one domain they are answered there;
elements over different domains get along as long as no pair of them has to be joined.
-/

namespace PolyIdeal

/-- The polynomials over their common domain, if they have one. -/
def homogeneous? (ps : List AnyPolynomial) : Option ((D : Domain) × List (Polynomial D.Elem)) :=
  let D := (ps.head?.map AnyPolynomial.domain).getD .rationals
  (AnyPolynomial.allInDomain? D ps).map (⟨D, ·⟩)

def ofDomain (D : Domain) (ps : List (Polynomial D.Elem)) : List AnyPolynomial :=
  ps.map (⟨D, ·⟩)

namespace AnyBasis

/-- The s-polynomial; over different domains its parts do not combine. -/
def sPolynomial (f g : AnyPolynomial) (order : Order) (tolerance : Option Tolerance) :
    Except Failure AnyPolynomial :=
  match g.inDomain? f.domain with
  | some g => (PolyIdeal.sPolynomial f.polynomial g order tolerance).map (⟨f.domain, ·⟩)
  | none => do
    let (lmf, lcf) ← f.polynomial.leadingTerm order
    let (lmg, lcg) ← g.polynomial.leadingTerm order
    Monomial.checkArity lmf.toInts lmg.toInts
    let (nu, mu) ← Monomial.shifts (Monomial.lcm lmf lmg) lmf lmg
    let _ ← f.polynomial.raisedBy nu lcf
    let _ ← g.polynomial.raisedBy mu lcg
    throw (.invalid (.differentDomains f.domain.text g.domain.text))

def joinsVanish (r : AnyReducer) (basis : List AnyPolynomial) :
    List (Nat × Nat) → Traced Note Bool
  | [] => pure true
  | (i, j) :: pairs =>
    match basis[i]?, basis[j]? with
    | some f, some g => do
      let s ← Traced.lift (sPolynomial f g r.order r.tolerance)
      if ← r.annihilates s then joinsVanish r basis pairs else return false
    | _, _ => joinsVanish r basis pairs

def isGroebnerBasis (basis : List AnyPolynomial) (choice : OrderChoice)
    (tolerance : Option Tolerance) : Traced Note Bool := do
  let order ← Traced.lift choice.resolve
  match homogeneous? basis with
  | some ⟨_, basis⟩ => (PolyIdeal.isGroebnerBasis basis order tolerance).ofBasis
  | none =>
    let r ← Traced.lift (AnyReducer.create order tolerance basis)
    joinsVanish r basis (criticalPairs basis.length)

def idealContains (basis : List AnyPolynomial) (f : AnyPolynomial) (choice : OrderChoice)
    (tolerance : Option Tolerance) : Traced Note Bool := do
  let order ← Traced.lift choice.resolve
  match AnyPolynomial.allInDomain? f.domain basis with
  | some basis => (PolyIdeal.idealContains basis f.polynomial order tolerance).ofBasis
  | none =>
    let r ← Traced.lift (AnyReducer.create order tolerance basis)
    r.annihilates f

/-- The place of the domain of `p` among some domains, as two exponents of which neither can grow
without the other one shrinking. -/
def domainExponents (domains : List Domain) (p : AnyPolynomial) : Monomial :=
  let k := domains.findIdx (· = p.domain)
  [k, domains.length - k]

/-- The leading monomial marked by the domain, of a polynomial whose leading coefficient is
invertible. -/
def markedMonomial? (order : Order) (domains : List Domain) (p : AnyPolynomial) :
    Option Monomial :=
  match p.polynomial.leadingTerm order with
  | .ok (lm, lc) =>
    (Coefficient.exquo? 1 lc).map fun _ => lm ++ domainExponents domains p
  | .error _ => none

def coprime (order : Order) (f g : AnyPolynomial) : Bool :=
  match f.polynomial.leadingMonomial order, g.polynomial.leadingMonomial order with
  | .ok m, .ok m' => Monomial.coprime m m'
  | _, _ => false

def join (order : Order) (config : Config) (basis : List AnyPolynomial) (f g : AnyPolynomial) :
    Traced Note (Option AnyPolynomial) :=
  if config.productCriterion && coprime order f g then pure none
  else do
    let reducer ← Traced.lift (AnyReducer.create order config.tolerance basis)
    let s ← Traced.lift (sPolynomial f g order config.tolerance)
    let r ← reducer.normalForm s
    let r ← Traced.lift (r.chop config.tolerance)
    if r.isZero then return none
    else
      match f.inDomain? r.domain, g.inDomain? r.domain with
      | some f, some g =>
        Traced.note (.basis r.domain (.remainder f g r.polynomial)) (pure (some r))
      | _, _ => return some r

def buchberger (generators : List AnyPolynomial) (choice : OrderChoice) (config : Config) :
    Traced Note (List AnyPolynomial) := do
  let order ← Traced.lift choice.resolve
  match homogeneous? generators with
  | some ⟨D, generators⟩ =>
    return ofDomain D (← (PolyIdeal.buchberger generators order config).ofBasis)
  | none =>
    let _ ← Traced.lift (generators.mapM fun g => g.polynomial.leadingMonomial order)
    let _ ← Traced.lift (AnyReducer.create order config.tolerance generators)
    Completion.complete (markedMonomial? order (generators.map AnyPolynomial.domain))
      (fun basis _ f g => join order config basis f g) generators
      (criticalPairs generators.length)

def reduceByOthers (order : Order) (tolerance : Option Tolerance) (others : List AnyPolynomial)
    (g : AnyPolynomial) : Traced Note (Change AnyPolynomial) := do
  let reducer ← Traced.lift (AnyReducer.create order tolerance others)
  let reducer ← Traced.lift (reducer.forDomain g.domain)
  let r ← (reducer.normalForm g.polynomial).ofBasis
  let r ← Traced.lift (r.chop tolerance)
  if r.agrees g.polynomial then return .kept
  else if r.isZero then Traced.note (.basis g.domain (.dropped g.polynomial)) (pure .dropped)
  else
    Traced.note (.basis g.domain (.replaced g.polynomial r)) (pure (.replaced ⟨g.domain, r⟩))

/-- Reduces every element modulo the others until no element changes. Without elements the order is
not looked at. -/
def autoreduce (basis : List AnyPolynomial) (choice : OrderChoice)
    (tolerance : Option Tolerance) : Traced Note (List AnyPolynomial) := do
  if basis.isEmpty then return []
  let order ← Traced.lift choice.resolve
  match homogeneous? basis with
  | some ⟨D, basis⟩ =>
    return ofDomain D (← (PolyIdeal.autoreduce basis order tolerance).ofBasis)
  | none =>
    Settlement.settle (fun g => (order.descending g.polynomial.monomials).map order.rank)
      (reduceByOthers order tolerance) basis

/-- The generators that are not zero, which must have the same variables and the same domain. -/
def nonzeroGenerators (generators : List AnyPolynomial) (tolerance : Option Tolerance) :
    Except Failure ((D : Domain) × List (Polynomial D.Elem)) := do
  let chopped ← generators.mapM (AnyPolynomial.chop tolerance)
  let nonzero := chopped.filter fun g => !g.isZero
  if (distinctArities (nonzero.map AnyPolynomial.nvars)).length > 1 then
    throw (.invalid .generatorArities)
  match homogeneous? nonzero with
  | some generators => return generators
  | none => throw (.invalid .generatorDomains)

def groebnerBasis (generators : List AnyPolynomial) (choice : OrderChoice) (config : Config) :
    Traced Note (List AnyPolynomial) := do
  let order ← Traced.lift choice.resolve
  let ⟨D, generators⟩ ← match homogeneous? generators with
    | some generators => pure generators
    | none => Traced.lift (nonzeroGenerators generators config.tolerance)
  return ofDomain D (← (PolyIdeal.groebnerBasis generators order config).ofBasis)

def sameIdeal (generators₁ generators₂ : List AnyPolynomial) (choice : OrderChoice)
    (config : Config) : Traced Note Bool := do
  let basis₁ ← groebnerBasis generators₁ choice config
  let basis₂ ← groebnerBasis generators₂ choice config
  return AnyPolynomial.sameLists basis₁ basis₂

end AnyBasis

end PolyIdeal
