import PolyIdeal.Basis.Buchberger

/-!
# Reduced Groebner bases

The reduced basis of the ideal that some polynomials generate, and the questions that it answers:
membership and equality of ideals.
-/

namespace PolyIdeal

variable {R : Type} [Zero R] [One R] [DecidableEq R] [Add R] [Sub R] [Mul R] [Neg R] [Coefficient R]

def Reducer.annihilates (r : Reducer R) (f : Polynomial R) : Traced (Event R) Bool := do
  let h ← r.normalForm f
  let h ← Traced.lift (h.chop r.tolerance)
  return h.isZero

/-- Whether `f` lies in the ideal of a Groebner basis. -/
def idealContains (basis : List (Polynomial R)) (f : Polynomial R) (order : Order)
    (tolerance : Option Tolerance) : Traced (Event R) Bool := do
  let reducer ← Traced.lift (Reducer.ofBasis order tolerance basis)
  reducer.annihilates f

def joinsVanish (r : Reducer R) (basis : List (Polynomial R)) :
    List (Nat × Nat) → Traced (Event R) Bool
  | [] => pure true
  | (i, j) :: pairs =>
    match basis[i]?, basis[j]? with
    | some f, some g => do
      let s ← Traced.lift (sPolynomial f g r.order r.tolerance)
      if ← r.annihilates s then joinsVanish r basis pairs else return false
    | _, _ => joinsVanish r basis pairs

/-- Whether the s-polynomials of all pairs reduce to zero. -/
def isGroebnerBasis (basis : List (Polynomial R)) (order : Order) (tolerance : Option Tolerance) :
    Traced (Event R) Bool := do
  let reducer ← Traced.lift (Reducer.ofBasis order tolerance basis)
  joinsVanish reducer basis (criticalPairs basis.length)

def nonzeroGenerators (generators : List (Polynomial R)) (tolerance : Option Tolerance) :
    Except Failure (List (Polynomial R)) := do
  let chopped ← generators.mapM (Polynomial.chop tolerance)
  let nonzero := chopped.filter fun g => !g.isZero
  if (distinctArities (nonzero.map Polynomial.nvars)).length > 1 then
    throw (.invalid .generatorArities)
  return nonzero

def sortedByLeading (order : Order) (basis : List (Polynomial R)) :
    Except Failure (List (Polynomial R)) := do
  let led ← basis.mapM fun g => return (order.rank (← g.leadingMonomial order), g)
  return (led.mergeSort fun a b => !decide (a.1 < b.1)).map Prod.snd

def normalized (order : Order) (basis : List (Polynomial R)) :
    Except Failure (List (Polynomial R)) :=
  match basis with
  | [] => .error .outOfRange
  | _ => if (Coefficient.domain R).isField then basis.mapM (Polynomial.monic order) else .ok basis

def allVanish (r : Reducer R) : List (Polynomial R) → Traced (Event R) Bool
  | [] => pure true
  | f :: fs => do if ← r.annihilates f then allVanish r fs else return false

/-- Verifies that a basis is a Groebner basis modulo which the generators vanish. -/
def verify (generators basis : List (Polynomial R)) (order : Order)
    (tolerance : Option Tolerance) : Traced (Event R) Unit := do
  let reducer ← Traced.lift (Reducer.ofBasis order tolerance basis)
  if !(← allVanish reducer generators) then
    Traced.fail (.arithmetic .generatorsNotReduced)
  if !(← isGroebnerBasis basis order tolerance) then
    Traced.fail (.arithmetic .notAGroebnerBasis)

/-- The reduced Groebner basis of the ideal of some generators: monic over a field, from the highest
leading monomial to the lowest, and empty for the zero ideal. -/
def groebnerBasis (generators : List (Polynomial R)) (order : Order) (config : Config) :
    Traced (Event R) (List (Polynomial R)) := do
  let generators ← Traced.lift (nonzeroGenerators generators config.tolerance)
  if generators.isEmpty then return []
  let basis ← buchberger generators order config
  let basis ← Traced.note (.completed generators.length basis.length)
    (autoreduce basis order config.tolerance)
  let basis ← if config.monic then Traced.lift (normalized order basis) else pure basis
  let basis ← Traced.lift (sortedByLeading order basis)
  if config.check then verify generators basis order config.tolerance
  return basis

def sameBasis (basis₁ basis₂ : List (Polynomial R)) : Bool :=
  basis₁.length == basis₂.length && (basis₁.zip basis₂).all fun (f, g) => f.agrees g

/-- Whether two lists of generators have the same reduced Groebner basis. -/
def sameIdeal (generators₁ generators₂ : List (Polynomial R)) (order : Order) (config : Config) :
    Traced (Event R) Bool := do
  let basis₁ ← groebnerBasis generators₁ order config
  let basis₂ ← groebnerBasis generators₂ order config
  return sameBasis basis₁ basis₂

end PolyIdeal
