import PolyIdeal.Euclid.Ring

/-!
# Greatest common divisors

The extended Euclidean algorithm and what follows from it: least common multiples and inverses
modulo an element.
-/

namespace PolyIdeal.Euclidean

variable {E : Type} [Euclidean E]

/-- A remainder with its representation `r * a + s * b`. -/
structure Combination (E : Type) where
  value : E
  r : E
  s : E

/-- The difference `x - q * y`, with the representation that follows. -/
def Combination.minusMultiple (x y : Combination E) (q : E) : Combination E :=
  ⟨x.value - q * y.value, x.r - q * y.r, x.s - q * y.s⟩

/-- How often a remainder may fail to get smaller, as rounded remainders can. -/
def patience : Nat := 1000

/-- The last remainder that is not zero, from two neighbouring ones. -/
def lastRemainder (patience : Nat) (x y : Combination E) : Except Failure (Combination E) :=
  if isZero y.value then .ok x
  else
    match quo x.value y.value with
    | .error e => .error e
    | .ok q =>
      let z := x.minusMultiple y q
      if _h : size z.value < size y.value then lastRemainder patience y z
      else
        match patience with
        | 0 => .error .exhausted
        | patience + 1 => lastRemainder patience y z
  termination_by (patience, size y.value)

/-- A greatest common divisor `g` of `a` and `b` with `g = r * a + s * b`. -/
def extendedGcd (a b : E) : Except Failure (Combination E) :=
  if isZero a && isZero b then .error (.arithmetic .gcdOfZeros)
  else if isZero b then .ok ⟨a, 1, 0⟩
  else lastRemainder patience ⟨a, 1, 0⟩ ⟨b, 0, 1⟩

def gcd (a b : E) : Except Failure E :=
  (extendedGcd a b).map Combination.value

def lcm (a b : E) : Except Failure E :=
  if isZero a || isZero b then .ok 0
  else do exactQuotient (a * b) (← gcd a b)

/-- A greatest common divisor behind its cofactors, for one or two elements. -/
def gcdAll (as : List E) : Except Failure (List E) :=
  match as with
  | [] => .error (.invalid .gcdOfNothing)
  | [a] => .ok [1, a]
  | [a, b] => (extendedGcd a b).map fun c => [c.r, c.s, c.value]
  | as => .error (.unsupported (.gcdOfMany as.length))

/-- A `c` with `c * a` congruent to one, not yet reduced; the texts name the arguments in a
failure. -/
def unitCofactor (a modulus : E) (aText modulusText : String) : Except Failure E := do
  let c ← extendedGcd a modulus
  match exquo 1 c.value with
  | .ok u => return c.r * u
  | .error e =>
    if e = .inexact ∨ e = .notInvertible ∨ e = .zeroDivision then
      throw (.arithmetic (.notInvertibleModulo aText modulusText (text c.value)))
    else throw e

/-- The inverse of `a` modulo an element that is coprime to it. -/
def inverseMod (a modulus : E) : Except Failure E := do
  rem (← unitCofactor a modulus (text a) (text modulus)) modulus

end PolyIdeal.Euclidean
