import PolyIdeal.Failure

/-!
# Sorting with a partial comparison

A stable sort that starts from the longest ordered beginning of a list and inserts the other
elements by binary search. The comparison may fail, and the sort fails with it.
-/

namespace PolyIdeal.Insertion

variable {α : Type} (lt : α → α → Except Failure Bool)

/-- The elements that follow `a` without falling, and the rest. -/
def ascendingRun (a : α) : List α → Except Failure (List α × List α)
  | [] => .ok ([], [])
  | b :: rest => do
    if ← lt b a then return ([], b :: rest)
    else
      let (run, rest) ← ascendingRun b rest
      return (b :: run, rest)

/-- The elements that follow `a` and fall, in reverse onto `acc`, and the rest. -/
def descendingRun (a : α) (acc : List α) : List α → Except Failure (List α × List α)
  | [] => .ok (acc, [])
  | b :: rest => do
    if ← lt b a then descendingRun b (b :: acc) rest
    else return (acc, b :: rest)

/-- The longest beginning that does not fall, or that falls all the way and is turned around. -/
def leadingRun : List α → Except Failure (List α × List α)
  | [] => .ok ([], [])
  | [a] => .ok ([a], [])
  | a :: b :: rest => do
    if ← lt b a then descendingRun lt b [b, a] rest
    else
      let (run, rest) ← ascendingRun lt b rest
      return (a :: b :: run, rest)

/-- The place behind the last element that is not above `x`, between `l` and `r`. -/
def position (x : α) (sorted : Array α) (l r : Nat) : Except Failure Nat :=
  if _h : l < r then
    let p := l + (r - l) / 2
    match sorted[p]? with
    | none => .ok l
    | some y =>
      match lt x y with
      | .error e => .error e
      | .ok true => position x sorted l p
      | .ok false => position x sorted (p + 1) r
  else .ok l
  termination_by r - l
  decreasing_by all_goals omega

def insert (sorted : List α) (x : α) : Except Failure (List α) := do
  let i ← position lt x sorted.toArray 0 sorted.length
  return sorted.take i ++ x :: sorted.drop i

def sort (l : List α) : Except Failure (List α) := do
  let (run, rest) ← leadingRun lt l
  rest.foldlM (insert lt) run

end PolyIdeal.Insertion
