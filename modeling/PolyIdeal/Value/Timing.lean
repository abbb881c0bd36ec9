import PolyIdeal.Timing.Clock
import PolyIdeal.Value.Basis

/-!
# Timing basis computations over any domain
-/

namespace PolyIdeal.AnyBasis

def timed (ideals : List (List AnyPolynomial)) (choices : List OrderChoice) (count : Int)
    (clock : Clock) (config : Config) : Traced Note Times := do
  let orders ← Traced.lift (choices.mapM OrderChoice.resolve)
  let run (ideal : List AnyPolynomial) (order : Order) : Traced Note Unit := do
    let _ ← groebnerBasis ideal (.given order) config
  timeOrders run ideals orders count clock

end PolyIdeal.AnyBasis
