import PolyIdeal.Coefficient.BinaryReal
import PolyIdeal.Text.Basic

/-!
# Decimal forms of numbers

The first decimal digits of a positive rational, and the two ways in which a number is written with
them: with up to fifteen significant digits, or in scientific notation with a fixed number of
places.
-/

namespace PolyIdeal.Decimal

def tenTo (k : Nat) : Nat :=
  Nat.pow 10 k

/-- The numerator and the denominator of `|q| * 10 ^ k`. -/
def scaled (q : Rat) (k : Int) : Nat × Nat :=
  if 0 ≤ k then (q.num.natAbs * tenTo k.toNat, q.den)
  else (q.num.natAbs, q.den * tenTo (-k).toNat)

/-- Rounds `|q| * 10 ^ k` down. -/
def scaledFloor (q : Rat) (k : Int) : Nat :=
  let (num, den) := scaled q k
  num / den

def scaledRound (q : Rat) (k : Int) : Nat :=
  let (num, den) := scaled q k
  BinaryReal.roundedQuotient num den

/-- An exponent `e` with `10 ^ e ≤ |q| < 10 ^ (e + 1)`, searched from a guess that is at most two
off. -/
def exponentNear (q : Rat) (guess : Int) : Int :=
  if scaledFloor q (-(guess + 2)) ≠ 0 then guess + 2
  else if scaledFloor q (-(guess + 1)) ≠ 0 then guess + 1
  else if scaledFloor q (-guess) ≠ 0 then guess
  else if scaledFloor q (-(guess - 1)) ≠ 0 then guess - 1
  else guess - 2

/-- The decimal exponent of the leading digit of a nonzero rational. -/
def exponent (q : Rat) : Int :=
  let bits : Int := (BinaryReal.bitLength q.num.natAbs : Int) - BinaryReal.bitLength q.den
  exponentNear q (bits * 30103 / 100000)

/-- The digits of `n`, filled with leading zeros to `width`. -/
def padded (width n : Nat) : List Char :=
  let digits := (Nat.repr n).toList
  List.replicate (width - digits.length) '0' ++ digits

/-- Significant digits kept of a number. -/
def significant : Nat := 15

/-- Digits that are looked at before rounding. -/
def examined : Nat := 18

/-- The first digits of a nonzero rational, rounded half up from the examined ones, and the exponent
of the leading digit. -/
def leadingDigits (q : Rat) : List Char × Int :=
  let e := exponent q
  let digits := scaledFloor q ((examined : Int) - 1 - e)
  let unit := tenTo (examined - significant)
  let kept := (digits + unit / 2) / unit
  if kept = tenTo significant then (padded significant (kept / 10), e + 1)
  else (padded significant kept, e)

/-- Trailing zeros are dropped, but one digit stays behind the point. -/
def withoutTrailingZeros (digits : List Char) : List Char :=
  match (digits.reverse.dropWhile (· = '0')).reverse with
  | [] => ['0']
  | ds => ds

/-- A number with fifteen significant digits: positional if its exponent lies strictly between -5
and 15, scientific otherwise. -/
def text (q : Rat) : String :=
  if q = 0 then "0.0"
  else
    let (digits, e) := leadingDigits q
    let sign := if q < 0 then "-" else ""
    let point (whole fraction : List Char) :=
      String.ofList (whole ++ ['.'] ++ withoutTrailingZeros fraction)
    if -5 < e ∧ e < 0 then
      sign ++ point ['0'] (List.replicate ((-e).toNat - 1) '0' ++ digits)
    else if 0 ≤ e ∧ e < 15 then
      sign ++ point (digits.take (e.toNat + 1)) (digits.drop (e.toNat + 1))
    else
      sign ++ point (digits.take 1) (digits.drop 1) ++ "e" ++ (if 0 ≤ e then "+" else "") ++
        Text.integer e

/-- The number with `n` significant digits nearest to a nonzero rational: its digits and the
exponent of the leading one. -/
def nearestDigits (q : Rat) (n : Nat) : Nat × Int :=
  let e := exponent q
  let kept := scaledRound q ((n : Int) - 1 - e)
  if kept = tenTo n then (tenTo (n - 1), e + 1) else (kept, e)

/-- The rational `digits * 10 ^ (e + 1 - n)`. -/
def ofDigits (digits n : Nat) (e : Int) : Rat :=
  let (num, den) := scaled digits (e + 1 - (n : Int))
  mkRat num den

/-- The fewest digits that round to the same binary number. -/
def shortestDigits (q : Rat) : List Char × Int :=
  let target := BinaryReal.ofRat (if q < 0 then -q else q)
  let fits (n : Nat) : Bool :=
    let (digits, e) := nearestDigits q n
    BinaryReal.ofRat (ofDigits digits n e) == target
  let n := ((List.range 17).map (· + 1)).find? fits |>.getD 17
  let (digits, e) := nearestDigits q n
  ((Nat.repr digits).toList, e)

/-- A binary number in the fewest digits: positional if its exponent is at least -4 and below 16. -/
def shortest (q : Rat) : String :=
  if q = 0 then "0.0"
  else
    let (digits, e) := shortestDigits q
    let sign := if q < 0 then "-" else ""
    if -4 ≤ e ∧ e < 0 then
      sign ++ "0." ++ String.ofList (List.replicate ((-e).toNat - 1) '0' ++ digits)
    else if 0 ≤ e ∧ e < 16 then
      let whole := digits.take (e.toNat + 1)
      sign ++ String.ofList (whole ++ List.replicate (e.toNat + 1 - whole.length) '0' ++ ['.'] ++
        withoutTrailingZeros (digits.drop (e.toNat + 1)))
    else
      let fraction := digits.drop 1
      sign ++ String.ofList (digits.take 1 ++ (if fraction.isEmpty then [] else '.' :: fraction)) ++
        "e" ++ (if 0 ≤ e then "+" else "-") ++ String.ofList (padded 2 e.natAbs)

/-- Scientific notation with two places, rounded half to even, and an exponent of at least two
digits. -/
def scientific (q : Rat) : String :=
  let sign := if q < 0 then "-" else ""
  let (digits, e) :=
    if q = 0 then (0, (0 : Int))
    else
      let e := exponent q
      let kept := scaledRound q (2 - e)
      if kept = 1000 then (100, e + 1) else (kept, e)
  let places := padded 3 digits
  sign ++ String.ofList (places.take 1 ++ ['.'] ++ places.drop 1) ++ "e" ++
    (if 0 ≤ e then "+" else "-") ++ String.ofList (padded 2 e.natAbs)

end PolyIdeal.Decimal
