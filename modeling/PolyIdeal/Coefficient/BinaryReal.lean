/-!
# Binary real numbers

Dyadic rationals of at most 53 bits with an exponent of any size. Each operation gives the nearest
such number, of two equally near ones the one with the even mantissa.
-/

namespace PolyIdeal

/-- A dyadic rational whose arithmetic rounds to 53 bits. -/
structure BinaryReal where
  value : Dyadic
  deriving DecidableEq

namespace BinaryReal

/-- The bits of a mantissa. -/
def precision : Nat := 53

def bitLength (n : Nat) : Nat :=
  if n = 0 then 0 else Nat.log2 n + 1

/-- The quotient `num / den`, to the nearest integer and from halfway to the even one. -/
def roundedQuotient (num den : Nat) : Nat :=
  let q := num / den
  let r := num % den
  if 2 * r < den then q
  else if den < 2 * r then q + 1
  else if q % 2 = 0 then q else q + 1

/-- The number of 53 bits nearest to a dyadic rational. -/
def round : Dyadic → BinaryReal
  | .zero => ⟨.zero⟩
  | .ofOdd n k h =>
    let size := bitLength n.natAbs
    if size ≤ precision then ⟨.ofOdd n k h⟩
    else
      let excess := size - precision
      ⟨.ofIntWithPrec (n.sign * roundedQuotient n.natAbs (1 <<< excess)) (k - excess)⟩

/-- The number of 53 bits nearest to a rational. -/
def ofRat (q : Rat) : BinaryReal :=
  if q = 0 then ⟨.zero⟩
  else
    let num := q.num.natAbs
    -- a power of two that gives the integer quotient 53 or 54 bits
    let scale : Int := (precision + bitLength q.den : Nat) - bitLength num
    let num' := if 0 ≤ scale then num <<< scale.toNat else num
    let den' := if 0 ≤ scale then q.den else q.den <<< (-scale).toNat
    let excess := bitLength (num' / den') - precision
    ⟨.ofIntWithPrec (q.num.sign * roundedQuotient num' (den' <<< excess)) (scale - excess)⟩

instance : Zero BinaryReal := ⟨⟨0⟩⟩
instance : One BinaryReal := ⟨⟨1⟩⟩
instance : Add BinaryReal := ⟨fun a b => round (a.value + b.value)⟩
instance : Sub BinaryReal := ⟨fun a b => round (a.value - b.value)⟩
instance : Mul BinaryReal := ⟨fun a b => round (a.value * b.value)⟩
instance : Neg BinaryReal := ⟨fun a => ⟨-a.value⟩⟩

def divide? (a b : BinaryReal) : Option BinaryReal :=
  if b.value = 0 then none else some (ofRat (a.value.toRat / b.value.toRat))

/-- A power is computed exactly and rounded once. -/
instance : Pow BinaryReal Nat := ⟨fun a k => round (a.value ^ k)⟩

def magnitude (a : BinaryReal) : Dyadic :=
  if a.value < 0 then -a.value else a.value

/-- The mantissa and the exponent of two, as `mpe`; zero is `0p0`. -/
def scaledText (a : BinaryReal) : String :=
  match a.value with
  | .zero => "0p0"
  | .ofOdd n k _ => toString n ++ "p" ++ toString (-k)

end BinaryReal

end PolyIdeal
