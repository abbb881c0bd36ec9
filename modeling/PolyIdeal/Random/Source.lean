import PolyIdeal.Failure
import PolyIdeal.Random.Twister

/-!
# Random choices

A source draws a place of a sequence, or several different places. Its choices are made by a
generator or follow a script.
-/

namespace PolyIdeal

structure RandomSource (σ : Type) where
  /-- A place of a sequence of the given length. -/
  choose : (length : Nat) → σ → Except Failure (Nat × σ)
  /-- Some places of a sequence of the given length. -/
  sample : (length : Nat) → (count : Int) → σ → Except Failure (List Nat × σ)

namespace RandomSource

/-- The least power of four that is at least `n`. -/
def powerOfFour (n : Nat) : Nat :=
  go n 1 n
where
  go (n p : Nat) : Nat → Nat
    | 0 => p
    | k + 1 => if p < n then go n (4 * p) k else p

/-- Draws by moving the last candidates to the places of drawn ones. -/
def samplePool : (count : Nat) → Array Nat → Twister → List Nat × Twister
  | 0, _, t => ([], t)
  | count + 1, pool, t =>
    let (j, t) := t.below pool.size
    let x := pool.getD j 0
    let last := pool.getD (pool.size - 1) 0
    let (rest, t) := samplePool count ((pool.set! j last).pop) t
    (x :: rest, t)

/-- The first of up to `attempts` random numbers that was not drawn before. -/
def fresh (length : Nat) (drawn : List Nat) : (attempts : Nat) → Twister → Nat × Twister
  | 0, t => (0, t)
  | attempts + 1, t =>
    let (j, t) := t.below length
    if drawn.contains j then fresh length drawn attempts t else (j, t)

/-- Draws numbers that differ from all drawn before, which are kept in reverse. -/
def sampleDistinct (length : Nat) : (count : Nat) → (drawn : List Nat) → Twister →
    List Nat × Twister
  | 0, drawn, t => (drawn.reverse, t)
  | count + 1, drawn, t =>
    let (j, t) := fresh length drawn 100000 t
    sampleDistinct length count (j :: drawn) t

def twister : RandomSource Twister where
  choose length t :=
    if length = 0 then .error .outOfRange else .ok (t.below length)
  sample length count t :=
    if count < 0 ∨ (length : Int) < count then .error .badValue
    else
      let count := count.toNat
      let poolLimit := 21 + if 5 < count then powerOfFour (3 * count) else 0
      .ok (if length ≤ poolLimit then samplePool count (Array.range length) t
        else sampleDistinct length count [] t)

/-- A scripted choice: one place, or several. -/
inductive Pick
  | one (place : Int)
  | several (places : List Int)

/-- A place that may be counted from the end. -/
def place (length : Nat) (i : Int) : Except Failure Nat :=
  let i' := if i < 0 then i + length else i
  if 0 ≤ i' ∧ i' < length then .ok i'.toNat else .error .outOfRange

def scripted : RandomSource (List Pick) where
  choose length picks :=
    match picks with
    | [] => .error .exhausted
    | .one i :: rest => do return (← place length i, rest)
    | .several _ :: _ => .error .noOperator
  sample length _ picks :=
    match picks with
    | [] => .error .exhausted
    | .several is :: rest => do return (← is.mapM (place length), rest)
    | .one _ :: _ => .error .noOperator

end RandomSource

end PolyIdeal
