import PolyIdeal.Coefficient.Decimal
import PolyIdeal.Timing.Clock

/-!
# Histograms of times

A histogram is described by the calls that draw it. Its title gives the population variance and the
mean, which are computed in binary real numbers.
-/

namespace PolyIdeal

/-- A call that draws a part of a histogram. -/
inductive DrawingCall
  | histogram (times : List Scalar) (bins : Nat) (density : Bool)
  | title (text : String)
  | xlabel (text : String)
  | ylabel (text : String)
  | grid
  | save (file : String)
  | close

namespace Histogram

/-- The sum in eight interleaved partial sums, for up to 128 numbers, and of two halves for more. -/
def pairwiseSum (xs : List BinaryReal) : BinaryReal :=
  if xs.length < 8 then xs.foldl (· + ·) 0
  else if _h : xs.length ≤ 128 then
    let whole := xs.length - xs.length % 8
    let partials := (List.range 8).map fun i =>
      ((List.range (whole / 8)).map fun k => xs.getD (8 * k + i) 0)
    let sums := partials.map fun part => (part.drop 1).foldl (· + ·) (part.getD 0 0)
    let s (i : Nat) := sums.getD i 0
    (xs.drop whole).foldl (· + ·) (((s 0 + s 1) + (s 2 + s 3)) + ((s 4 + s 5) + (s 6 + s 7)))
  else
    let half := xs.length / 2 - xs.length / 2 % 8
    pairwiseSum (xs.take half) + pairwiseSum (xs.drop half)
  termination_by xs.length
  decreasing_by
    · simp only [List.length_take]; omega
    · simp only [List.length_drop]; omega

def quotient (x : BinaryReal) (n : Nat) : BinaryReal :=
  (x.divide? (BinaryReal.round (n : Int))).getD 0

def mean (xs : List BinaryReal) : BinaryReal :=
  quotient (pairwiseSum xs) xs.length

def variance (xs : List BinaryReal) : BinaryReal :=
  let m := mean xs
  mean (xs.map fun x => (x - m) * (x - m))

def statisticText (xs : List BinaryReal) (x : BinaryReal) : String :=
  if xs.isEmpty then "nan" else Decimal.scientific x.value.toRat

/-- The title over some times, none of which may be a fraction. -/
def title (times : List Scalar) : Except Failure String := do
  let xs ← times.mapM fun
    | .integer n => .ok (BinaryReal.round n)
    | .real x => .ok ⟨x⟩
    | _ => .error .noOperator
  return "Variance: " ++ statisticText xs (variance xs) ++ ", Mean: " ++
    statisticText xs (mean xs)

/-- What follows the last slash of a path. -/
def lastComponent (path : String) : String :=
  String.ofList (path.toList.reverse.takeWhile (· ≠ '/')).reverse

def drawing (times : List Scalar) (name : String) : Except Failure (List DrawingCall) := do
  return [.histogram times 100 true, .title (← title times), .xlabel "Time [s]",
    .ylabel "Probability Density", .grid, .save (lastComponent (name ++ ".png")), .close]

def drawings (times : Times) : Except Failure (List DrawingCall) := do
  return (← times.mapM fun (name, ts) => drawing ts name).flatten

end Histogram

end PolyIdeal
