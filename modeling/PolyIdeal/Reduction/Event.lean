import PolyIdeal.Polynomial.Leading

/-!
# Events of a basis computation
-/

namespace PolyIdeal

inductive Event (R : Type) [Zero R]
  | reduced (f : Polynomial R) (m : Monomial) (g h : Polynomial R)
  | remainder (f g r : Polynomial R)
  | completed (generators elements : Nat)
  | dropped (g : Polynomial R)
  | replaced (g r : Polynomial R)

namespace Event

variable {R : Type} [Zero R] [One R] [DecidableEq R] [Add R] [Sub R] [Mul R] [Neg R] [Coefficient R]

def message : Event R → String
  | reduced f m g h => "reduced " ++ f.text ++ " at " ++ Text.exponents m.toInts ++ " by " ++
      g.text ++ " to " ++ h.text
  | remainder f g r => "s-polynomial of " ++ f.text ++ " and " ++ g.text ++ " reduces to " ++
      r.text
  | completed generators elements => "groebner basis of " ++ Nat.repr generators ++
      " generators has " ++ Nat.repr elements ++ " elements before reduction"
  | dropped g => "dropped " ++ g.text
  | replaced g r => "replaced " ++ g.text ++ " by " ++ r.text

def isReduction : Event R → Bool
  | reduced .. => true
  | _ => false

end Event

end PolyIdeal
