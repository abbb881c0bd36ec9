import PolyIdeal.Failure

/-!
# Traced computations

A computation that notes events on its way and ends with a result or a failure. What was noted
before a failure is kept.
-/

namespace PolyIdeal

structure Traced (ε α : Type) where
  events : List ε
  result : Except Failure α

namespace Traced

variable {ε ε' α β : Type}

def fail (e : Failure) : Traced ε α :=
  ⟨[], .error e⟩

def lift (r : Except Failure α) : Traced ε α :=
  ⟨[], r⟩

/-- Notes an event before the rest of a computation. -/
def note (e : ε) (t : Traced ε α) : Traced ε α :=
  ⟨e :: t.events, t.result⟩

protected def bind (t : Traced ε α) (f : α → Traced ε β) : Traced ε β :=
  match t.result with
  | .error e => ⟨t.events, .error e⟩
  | .ok a => ⟨t.events ++ (f a).events, (f a).result⟩

instance : Monad (Traced ε) where
  pure a := ⟨[], .ok a⟩
  bind := Traced.bind

instance : MonadLift (Except Failure) (Traced ε) := ⟨lift⟩

def mapEvents (f : ε → ε') (t : Traced ε α) : Traced ε' α :=
  ⟨t.events.map f, t.result⟩

end Traced

end PolyIdeal
