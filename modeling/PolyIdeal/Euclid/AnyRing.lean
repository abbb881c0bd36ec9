import PolyIdeal.Coefficient.Reader
import PolyIdeal.Euclid.ResidueClass

/-!
# The Euclidean rings on offer

A coefficient domain, or the univariate polynomials over a field.
-/

namespace PolyIdeal

inductive Ring
  | domain (D : Domain)
  | polynomials (K : Domain)
  deriving DecidableEq

namespace Ring

/-- The ring of univariate polynomials over a field. -/
def polynomialsOver (K : Domain) : Except Failure Ring :=
  if K.isField then .ok (polynomials K)
  else .error (.unsupported (.polynomialRingOver K.text))

/-- The ring of a name, which is refused if it names polynomials over no field. -/
def ofText? (s : String) : Option (Except Failure Ring) :=
  match s.toList.reverse with
  | ']' :: 'X' :: '[' :: rest => (Domain.ofText? (String.ofList rest.reverse)).map polynomialsOver
  | _ => (Domain.ofText? s).map fun D => .ok (domain D)

abbrev Elem : Ring → Type
  | domain D => D.Elem
  | polynomials K => Univariate K.Elem

instance (A : Ring) : Euclidean A.Elem :=
  match A with
  | domain D => inferInstanceAs (Euclidean D.Elem)
  | polynomials K => inferInstanceAs (Euclidean (Univariate K.Elem))

def text : Ring → String
  | domain D => D.text
  | polynomials K => K.text ++ "[X]"

end Ring

end PolyIdeal
