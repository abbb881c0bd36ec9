import PolyIdeal.Coefficient.Scalar

/-!
# Reading numbers and domains

Numbers are read from their exact forms: an integer in decimal digits, a fraction `a/b`, and a real
number `mpe` for `m * 2 ^ e`. Domains are read from their names.
-/

namespace PolyIdeal

namespace Text

def decimal? (cs : List Char) : Option Nat :=
  if !cs.isEmpty && cs.all Char.isDigit then
    some (cs.foldl (fun n c => n * 10 + (c.toNat - '0'.toNat)) 0)
  else none

def signedDecimal? : List Char → Option Int
  | '-' :: cs => (decimal? cs).map fun n => -Int.ofNat n
  | cs => (decimal? cs).map Int.ofNat

/-- What stands before and behind the first `c`. -/
def splitAround (c : Char) (cs : List Char) : Option (List Char × List Char) :=
  match cs.dropWhile (· != c) with
  | [] => none
  | _ :: behind => some (cs.takeWhile (· != c), behind)

end Text

namespace Scalar

def ofText? (s : String) : Option Scalar :=
  let cs := s.toList
  match Text.splitAround '/' cs, Text.splitAround 'p' cs with
  | some (num, den), _ => do
    let p ← Text.signedDecimal? num
    let q ← Text.decimal? den
    return .rational ((p : Rat) / (q : Rat))
  | none, some (mantissa, exponent) => do
    let m ← Text.signedDecimal? mantissa
    let e ← Text.signedDecimal? exponent
    return .real (Dyadic.ofIntWithPrec m (-e))
  | none, none => (Text.signedDecimal? cs).map integer

def exactText : Scalar → String
  | real x => (⟨x⟩ : BinaryReal).scaledText
  | s => s.text

end Scalar

namespace Domain

def ofText? (s : String) : Option Domain :=
  match s.toList with
  | ['Z', 'Z'] => some integers
  | ['Q', 'Q'] => some rationals
  | ['R', 'R'] => some reals
  | 'G' :: 'F' :: '(' :: rest =>
    match Text.splitAround ')' rest with
    | some (digits, []) => (Text.decimal? digits).map residues
    | _ => none
  | _ => none

end Domain

end PolyIdeal
