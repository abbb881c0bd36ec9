import PolyIdeal.Basis.Groebner

/-!
# Timing basis computations

Every ideal is timed under every order, by a clock that is read before and after each computation.
The times of an order are kept under its short name; orders that share one share a list.
-/

namespace PolyIdeal

/-- The readings of a clock that are still to come. -/
abbrev Clock := List Scalar

namespace Clock

/-- The difference of two readings. It is an integer if both are, and a real number otherwise. -/
def elapsed (start finish : Scalar) : Except Failure Scalar :=
  let real : Scalar → Option BinaryReal
    | .integer n => some (BinaryReal.round n)
    | .real x => some ⟨x⟩
    | _ => none
  match start, finish with
  | .integer a, .integer b => .ok (.integer (b - a))
  | .integer a, .rational b => .ok (.rational (b - a))
  | .rational a, .integer b => .ok (.rational (b - a))
  | .rational a, .rational b => .ok (.rational (b - a))
  | a, b =>
    match real a, real b with
    | some x, some y => .ok (.real (y - x).value)
    | _, _ => .error .noOperator

def read : Clock → Except Failure (Scalar × Clock)
  | [] => .error .exhausted
  | reading :: clock => .ok (reading, clock)

end Clock

/-- The times of each order, by its short name. -/
abbrev Times := List (String × List Scalar)

namespace Times

/-- No times, for some orders. -/
def empty (orders : List Order) : Times :=
  orders.foldl (fun times o =>
    if (times.lookup o.shortName).isSome then times else times ++ [(o.shortName, [])]) []

def record (times : Times) (name : String) (t : Scalar) : Times :=
  times.map fun (a, ts) => if a = name then (a, ts ++ [t]) else (a, ts)

end Times

variable {ε I : Type}

/-- Times a computation on one ideal under each order. -/
def timeIdeal (run : I → Order → Traced ε Unit) (ideal : I) :
    List Order → Times → Clock → Traced ε (Times × Clock)
  | [], times, clock => pure (times, clock)
  | order :: orders, times, clock => do
    let (start, clock) ← Traced.lift clock.read
    run ideal order
    let (finish, clock) ← Traced.lift clock.read
    let t ← Traced.lift (Clock.elapsed start finish)
    timeIdeal run ideal orders (times.record order.shortName t) clock

def timeIdeals (run : I → Order → Traced ε Unit) (orders : List Order) :
    (count : Nat) → List I → Times → Clock → Traced ε Times
  | 0, _, times, _ => pure times
  | _ + 1, [], _, _ => Traced.fail .exhausted
  | count + 1, ideal :: ideals, times, clock => do
    let (times, clock) ← timeIdeal run ideal orders times clock
    timeIdeals run orders count ideals times clock

/-- The times that a computation takes on `count` ideals under each order. -/
def timeOrders (run : I → Order → Traced ε Unit) (ideals : List I) (orders : List Order)
    (count : Int) (clock : Clock) : Traced ε Times :=
  timeIdeals run orders count.toNat ideals (Times.empty orders) clock

def timeGroebnerBases {R : Type} [Zero R] [One R] [DecidableEq R] [Add R] [Sub R] [Mul R] [Neg R]
    [Coefficient R] (ideals : List (List (Polynomial R))) (orders : List Order) (count : Int)
    (clock : Clock) (config : Config) : Traced (Event R) Times :=
  timeOrders (fun ideal order => do let _ ← groebnerBasis ideal order config) ideals orders count
    clock

end PolyIdeal
