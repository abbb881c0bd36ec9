import PolyIdeal.Value.Basic

/-!
# Tensors from nested lists

The rank of nested lists is the depth down to which all lists of a level have one length; what lies
deeper is an entry. Polynomials are formed of the entries if all of them are coefficients.
-/

namespace PolyIdeal

def commonStart : List Nat → List Nat → List Nat
  | m :: ms, n :: ns => if m = n then m :: commonStart ms ns else []
  | _, _ => []

namespace Value

mutual

/-- The lengths of the lists of each level, as far as they agree. -/
def shape : Value → List Nat
  | list [] => [0]
  | list (v :: vs) => (vs.length + 1) :: shapeWith v.shape vs
  | _ => []

/-- What shapes start with in common. -/
def shapeWith (start : List Nat) : List Value → List Nat
  | [] => start
  | v :: vs => shapeWith (commonStart start v.shape) vs

end

def atDepth : Nat → Value → List Value
  | 0, v => [v]
  | depth + 1, list vs => vs.flatMap (atDepth depth)
  | _ + 1, _ => []

variable {R : Type} [Zero R] [DecidableEq R] [Coefficient R]

omit [Zero R] [DecidableEq R] in
/-- The entries of nested lists as coefficients. -/
def entries? (v : Value) : Option (List R) :=
  (v.atDepth v.shape.length).mapM fun entry => entry.number?.bind Coefficient.ofScalar?

omit [DecidableEq R] in
/-- The tensor with the given entries. -/
def tensorOf (shape : List Nat) (entries : List R) : Tensor R :=
  let table := entries.toArray
  Tensor.ofFn shape fun m => table.getD (Tensor.offset shape m) 0

/-- The polynomial whose coefficients are the entries of nested lists. -/
def multinomial (v : Value) : Except Failure (Multinomial R) :=
  if h : v.shape = [] then .error (.invalid .rankZeroTensor)
  else
    match v.entries? (R := R) with
    | none => .error (.invalid (.degenerateTensor (Coefficient.domain R).text))
    | some entries => .ok (.ofTensor (tensorOf v.shape entries) h)

/-- Nested lists as a tensor that is as small as can be. -/
def trimmedTensor (v : Value) : Except Failure (Tensor R) :=
  match v.entries? (R := R) with
  | none => .error .noConversion
  | some entries =>
    if v.shape = [] then .error .badValue else .ok (tensorOf v.shape entries).trim

/-- The polynomial whose coefficients are listed from the constant one. -/
def univariate (v : Value) : Except Failure (Univariate R) :=
  match v with
  | list vs => Univariate.fromCoefficients (vs.map number?)
  | text s => Univariate.fromCoefficients (s.toList.map fun _ => none)
  | _ => .error .noOperator

end Value

/-- The polynomial of nested lists: of a list of coefficients or a single one in one variable, and
otherwise with a variable for each level. -/
def Value.representative {R : Type} [Zero R] [DecidableEq R] [Coefficient R] (v : Value) :
    Except Failure (Polynomial R) :=
  if v.shape.length ≤ 1 then
    (Univariate.fromCoefficients ((v.atDepth v.shape.length).map number?)).map .univariate
  else v.multinomial.map .multinomial

end PolyIdeal
