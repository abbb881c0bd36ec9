import PolyIdeal.Builder.Cursor
import PolyIdeal.Value.AnyPolynomial

/-!
# Builders over any domain
-/

namespace PolyIdeal

structure AnyBuilder where
  domain : Domain
  builder : Builder domain.Elem

structure AnyCursor where
  domain : Domain
  cursor : Cursor domain.Elem

namespace AnyBuilder

def create (nvars : Int) (D : Domain) : Except Failure AnyBuilder := do
  return ⟨D, ← Builder.create nvars⟩

def apply (b : AnyBuilder) (request : Builder.Request) : AnyBuilder × Except Failure Unit :=
  let (builder, outcome) := b.builder.apply request
  (⟨b.domain, builder⟩, outcome)

/-- The request to add the terms of a polynomial. -/
def addition (p : AnyPolynomial) : Builder.Request :=
  .add p.nvars p.terms

def get (b : AnyBuilder) (exponents : List Int) : Except Failure Scalar :=
  (b.builder.get exponents).map Coefficient.toScalar

def terms (b : AnyBuilder) : List (Monomial × Scalar) :=
  b.builder.terms.map fun (m, c) => (m, Coefficient.toScalar c)

def build (b : AnyBuilder) : Except Failure AnyPolynomial := do
  return ⟨b.domain, ← b.builder.build⟩

def cursor (b : AnyBuilder) : AnyCursor :=
  ⟨b.domain, .start b.builder⟩

end AnyBuilder

namespace AnyCursor

/-- Runs a step of a cursor on its builder; with a builder over another domain the cursor is
stale. -/
def run {α : Type} (c : AnyCursor) (b : AnyBuilder)
    (step : (D : Domain) → Cursor D.Elem → Builder D.Elem → Cursor D.Elem × Except Failure α) :
    AnyCursor × Except Failure α :=
  if h : b.domain = c.domain then
    let (cursor, outcome) := step c.domain c.cursor (h ▸ b.builder)
    (⟨c.domain, cursor⟩, outcome)
  else (c, .error .staleCursor)

def next (c : AnyCursor) (b : AnyBuilder) : AnyCursor × Except Failure (Monomial × Scalar) :=
  c.run b fun _ c b =>
    let (c, outcome) := c.next b
    (c, outcome.map fun (m, a) => (m, Coefficient.toScalar a))

def drain (c : AnyCursor) (b : AnyBuilder) :
    AnyCursor × Except Failure (List (Monomial × Scalar)) :=
  c.run b fun _ c b =>
    let (c, outcome) := c.drain b
    (c, outcome.map fun terms => terms.map fun (m, a) => (m, Coefficient.toScalar a))

end AnyCursor

end PolyIdeal
