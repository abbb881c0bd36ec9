import PolyIdeal.Coefficient.Basic
import PolyIdeal.Monomial.Basic

/-!
# Written sums of terms

Terms are written in lexicographically descending order and joined by plus signs. A coefficient that
starts with a minus sign or holds a blank is put in brackets before its variables, and a coefficient
of one is left out there.
-/

namespace PolyIdeal

namespace Monomial

/-- The name of variable `i`; a variable that is alone needs no index. -/
def variableName (nvars i : Nat) : String :=
  if nvars = 1 then "X" else "X" ++ Nat.repr i

/-- The powers of the variables that occur. -/
def powers (m : Monomial) : List String :=
  m.zipIdx.filterMap fun (e, i) =>
    let name := variableName m.length i
    if e = 0 then none
    else if e = 1 then some name
    else some (name ++ "^" ++ Nat.repr e)

end Monomial

variable {R : Type} [Zero R] [One R] [DecidableEq R] [Coefficient R]

def termText (term : Monomial × R) : String :=
  let c := Coefficient.text term.2
  match term.1.powers with
  | [] => c
  | powers =>
    if term.2 = 1 then "*".intercalate powers
    else
      let c := if c.startsWith "-" || c.contains ' ' then "(" ++ c ++ ")" else c
      "*".intercalate (c :: powers)

/-- A sum of terms, which are given in ascending order. -/
def termsText (terms : List (Monomial × R)) : String :=
  match terms with
  | [] => "0"
  | _ => " + ".intercalate (terms.reverse.map termText)

end PolyIdeal
