import PolyIdeal.Builder.Basic

/-!
# Cursors over a builder

A cursor walks through the terms that its builder had when the cursor was made. It fails when it
is to yield a term after a change of the builder, and then it is finished.
-/

namespace PolyIdeal

structure Cursor (R : Type) where
  generation : Nat
  remaining : List (Monomial × R)

namespace Cursor

variable {R : Type}

def start (b : Builder R) : Cursor R :=
  ⟨b.generation, b.terms⟩

/-- The next term, and the cursor behind it. -/
def next (c : Cursor R) (b : Builder R) : Cursor R × Except Failure (Monomial × R) :=
  match c.remaining with
  | [] => (c, .error .exhausted)
  | term :: rest =>
    if b.generation = c.generation then ({ c with remaining := rest }, .ok term)
    else ({ c with remaining := [] }, .error .staleCursor)

def drain (c : Cursor R) (b : Builder R) : Cursor R × Except Failure (List (Monomial × R)) :=
  let finished := { c with remaining := [] }
  if c.remaining.isEmpty || b.generation == c.generation then (finished, .ok c.remaining)
  else (finished, .error .staleCursor)

end Cursor

end PolyIdeal
