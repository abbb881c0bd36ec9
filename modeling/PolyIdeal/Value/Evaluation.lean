import PolyIdeal.Value.Operators

/-!
# Values of polynomials

A polynomial is evaluated in its own domain where the coordinates are elements of it. Other
coordinates are multiplied and added as values, so that they may be polynomials.
-/

namespace PolyIdeal

/-- The coordinate as an element of the domain, without rounding it. -/
def nativeCoordinate? : (D : Domain) → Value → Option D.Elem
  | .integers, .number (.integer n) => some n
  | .rationals, .number (.integer n) => some (n : Rat)
  | .rationals, .number (.rational q) => some q
  | .reals, .number (.real x) => some ⟨x⟩
  | .residues n, .number (.integer k) => some (Residue.ofInt n k)
  | .residues n, .number (.residue m r) => if h : m = n then some (h ▸ r) else none
  | _, _ => none

/-- An integer beside a real number: exact beside the elements of the reals, and rounded
elsewhere. -/
def liftedInteger (D : Domain) (n : Int) : Dyadic :=
  match D with
  | .reals => .ofInt n
  | _ => (BinaryReal.round (.ofInt n)).value

/-- Applies an operator on the way to the value of a polynomial over `D`. -/
def combineIn (D : Domain) (op : Operator) : Value → Value → Traced Note Value
  | .number s, .number t => .lift ((Scalar.combine (liftedInteger D) op s t).map .number)
  | v, w => Value.combine op v w

namespace AnyPolynomial

def hornerValue (D : Domain) (x : Value) (r : Value) : List D.Elem → Traced Note Value
  | [] => pure r
  | c :: cs => do
    let product ← combineIn D .mul r x
    hornerValue D x (← combineIn D .add product (.ofElement c)) cs

/-- A term's coefficient times powers of the coordinates. -/
def termValue (D : Domain) (value : Value) : List (Value × Nat) → Traced Note Value
  | [] => pure value
  | (_, 0) :: rest => termValue D value rest
  | (x, e + 1) :: rest => do
    let power ← Traced.lift (x.pow (.number (.integer (e + 1 : Nat))))
    termValue D (← combineIn D .mul value power) rest

def sumOfTerms (D : Domain) (point : List Value) (sum : Value) :
    List (Monomial × D.Elem) → Traced Note Value
  | [] => pure sum
  | (m, c) :: terms => do
    let value ← termValue D (.ofElement c) (point.zip m)
    sumOfTerms D point (← combineIn D .add sum value) terms

/-- The coordinates of a point for a polynomial: a single one need not be listed. -/
def coordinates (p : AnyPolynomial) (point : Value) : Except Failure (List Value) :=
  match p.polynomial, point with
  | .univariate _, .list xs => .ok xs
  | .univariate _, x => .ok [x]
  | .multinomial _, .list xs => .ok xs
  | .multinomial _, .text s => .ok (s.toList.map fun c => .text (String.ofList [c]))
  | .multinomial _, _ => .error .noOperator

def evaluate (p : AnyPolynomial) (point : Value) : Traced Note Value := do
  let xs ← Traced.lift (p.coordinates point)
  match xs.mapM (nativeCoordinate? p.domain) with
  | some xs => return .ofElement (← Traced.lift (p.polynomial.evaluateAt xs))
  | none =>
    let zero : Value := .ofElement (0 : p.domain.Elem)
    match p.polynomial with
    | .univariate f =>
      match xs with
      | [x] => hornerValue p.domain x zero f.coefficients.reverse
      | _ => .fail .badValue
    | .multinomial f =>
      if xs.length = f.nvars then sumOfTerms p.domain xs zero f.terms
      else .fail (.invalid (.pointLength f.nvars xs.length))

/-- The value of a univariate polynomial, taken as a function. -/
def call (p : AnyPolynomial) (point : Value) : Traced Note Value :=
  match p.polynomial with
  | .univariate _ => p.evaluate point
  | .multinomial _ => .fail .noOperator

end AnyPolynomial

end PolyIdeal
