import PolyIdeal.Euclid.AnyRing
import PolyIdeal.Euclid.Congruence
import PolyIdeal.Reduction.Event
import PolyIdeal.Traced

/-!
# Notes

The events that computations over any domain note on their way.
-/

namespace PolyIdeal

inductive Note
  | basis (D : Domain) (event : Event D.Elem)
  | congruence (A : Ring) (event : CongruenceEvent A.Elem)

namespace Note

def message : Note → String
  | basis _ event => event.message
  | congruence _ event => event.message

def isReduction : Note → Bool
  | basis _ event => event.isReduction
  | congruence _ _ => false

end Note

/-- A computation over a domain among computations over any. -/
def Traced.ofBasis {D : Domain} {α : Type} (t : Traced (Event D.Elem) α) : Traced Note α :=
  t.mapEvents (Note.basis D)

/-- A computation in a ring among computations in any. -/
def Traced.ofCongruences {A : Ring} {α : Type} (t : Traced (CongruenceEvent A.Elem) α) :
    Traced Note α :=
  t.mapEvents (Note.congruence A)

end PolyIdeal
