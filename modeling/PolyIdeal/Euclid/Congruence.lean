import PolyIdeal.Euclid.ResidueClass
import PolyIdeal.Traced

/-!
# Simultaneous congruences

The Chinese remainder theorem: a solution modulo the first moduli is corrected by a multiple of
their product so that it also solves the next congruence.
-/

namespace PolyIdeal

/-- The state after congruence `index`: a solution modulo `modulus`. -/
structure CongruenceEvent (E : Type) where
  index : Nat
  solution : E
  modulus : E

namespace CongruenceEvent

def message {E : Type} [Euclidean E] (e : CongruenceEvent E) : String :=
  "congruence " ++ Nat.repr e.index ++ ": " ++ Euclidean.text e.solution ++ " mod " ++
    Euclidean.text e.modulus

end CongruenceEvent

variable {E : Type} [Euclidean E]

def correction (solution modulus x m : E) : Except Failure E := do
  let c ← Euclidean.inverseMod modulus m
  Euclidean.rem ((x - solution) * c) m

/-- Solves the congruences from number `index` on, from a solution modulo `modulus`. -/
def solveFrom (index : Nat) (solution modulus : E) :
    List (E × E) → Traced (CongruenceEvent E) (ResidueClass E)
  | [] => .lift (ResidueClass.of solution modulus)
  | (x, m) :: rest =>
    match correction solution modulus x m with
    | .error e => .fail e
    | .ok s =>
      let solution := solution + s * modulus
      .note ⟨index, solution, modulus * m⟩ (solveFrom (index + 1) solution (modulus * m) rest)

/-- The class of the solutions of `y ≡ x (mod m)` for the given pairs. -/
def chineseRemainder (xs ms : List E) : Traced (CongruenceEvent E) (ResidueClass E) :=
  if xs.length ≠ ms.length then .fail (.invalid (.congruenceCounts xs.length ms.length))
  else
    match xs.zip ms with
    | [] => .fail (.invalid .noCongruences)
    | (x, m) :: rest => solveFrom 1 x (1 * m) rest

end PolyIdeal
