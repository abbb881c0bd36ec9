import PolyIdeal.Random.Ideal
import PolyIdeal.Text.Numeral

/-!
# Distributions of ideals

A distribution `n-d-s-uniform` stands for ideals in `n` variables whose generators have total degree
at most `d` and `s` terms. Its stream seeds every ideal anew from a generator of its own.
-/

namespace PolyIdeal

structure IdealDistribution where
  nvars : Int
  degree : Int
  size : Int
  generators : Int := 3

namespace IdealDistribution

def parts : List Char → List (List Char)
  | [] => [[]]
  | c :: cs =>
    if c = '-' then [] :: parts cs
    else
      match parts cs with
      | [] => [[c]]
      | p :: ps => (c :: p) :: ps

def parse? (name : String) : Except Failure IdealDistribution :=
  let failure := Failure.invalid (.idealDistribution name)
  match parts name.toList with
  | [n, d, s, kind] =>
    if kind = "uniform".toList then
      match Text.integer? n, Text.integer? d, Text.integer? s with
      | some nvars, some degree, some size => .ok { nvars, degree, size }
      | _, _, _ => .error failure
    else .error failure
  | _ => .error failure

def seedBound : Nat := UInt32.size

variable {R : Type} [Zero R] [DecidableEq R] [Add R] [Sub R] [Mul R] [Neg R] [Coefficient R]

/-- The next `count` ideals of a stream. -/
def ideals (d : IdealDistribution) :
    (count : Nat) → Twister → Except Failure (List (List (Polynomial R)))
  | 0, _ => .ok []
  | count + 1, t => do
    let (seed, t) := t.below seedBound
    let ideal ← seededIdeal d.nvars d.degree d.size d.generators seed
    return ideal :: (← ideals d count t)

end IdealDistribution

end PolyIdeal
