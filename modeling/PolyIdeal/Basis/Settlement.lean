import PolyIdeal.Order.WellFounded
import PolyIdeal.Traced

/-!
# Settling a list

The elements of a list are changed by looking at the others, the first that changes first, until
none does. This ends when every change lowers the element or drops it.
-/

namespace PolyIdeal

/-- What becomes of an element. -/
inductive Change (P : Type)
  | kept
  | dropped
  | replaced (r : P)

namespace Settlement

variable {ε P : Type}

/-- The list after its first change, or nothing if no element behind `before` changes. -/
def change? (change : List P → P → Traced ε (Change P)) :
    (before after : List P) → Traced ε (Option (List P))
  | _, [] => pure none
  | before, g :: after => do
    match ← change (before ++ after) g with
    | .kept => change? change (before ++ [g]) after
    | .dropped => return some (before ++ after)
    | .replaced r => return some (before ++ r :: after)

/-- A support lies lower than another if it descends to it. -/
abbrev Lower : List (List Nat) → List (List Nat) → Prop :=
  DescendsTo (ShortLex (· < ·))

theorem lower_wf : WellFounded Lower :=
  descendsTo_wf (shortLex_wf Nat.lt_wfRel.wf)

/-- Changes a list until nothing changes. The support of an element lists the ranks of its monomials
from the highest. -/
def settle (support : P → List (List Nat)) (change : List P → P → Traced ε (Change P))
    (basis : List P) : Traced ε (List P) :=
  let t := change? change [] basis
  match t.result with
  | .error e => ⟨t.events, .error e⟩
  | .ok none => ⟨t.events, .ok basis⟩
  | .ok (some basis') =>
    if _h : ShortLex Lower (basis'.map support) (basis.map support) then
      let t' := settle support change basis'
      ⟨t.events ++ t'.events, t'.result⟩
    else ⟨t.events, .ok basis'⟩
  termination_by (shortLex_wf lower_wf).wrap (basis.map support)
  decreasing_by exact _h

end Settlement

end PolyIdeal
