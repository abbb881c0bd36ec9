import PolyIdeal.Euclid.Gcd

/-!
# Residue classes

The classes of a Euclidean ring modulo an element, each by the remainder of its members.
-/

namespace PolyIdeal

structure ResidueClass (E : Type) where
  value : E
  modulus : E

namespace ResidueClass

variable {E : Type} [Euclidean E]

def of (value modulus : E) : Except Failure (ResidueClass E) :=
  if Euclidean.isZero modulus then .error (.arithmetic .zeroModulus)
  else (Euclidean.rem value modulus).map fun r => ⟨r, modulus⟩

def text (c : ResidueClass E) : String :=
  Euclidean.text c.value ++ " mod " ++ Euclidean.text c.modulus

def check (c d : ResidueClass E) : Except Failure Unit :=
  if Euclidean.same c.modulus d.modulus then .ok ()
  else .error (.arithmetic
    (.mixedModuli (Euclidean.text c.modulus) (Euclidean.text d.modulus)))

def add (c d : ResidueClass E) : Except Failure (ResidueClass E) := do
  c.check d
  of (c.value + d.value) c.modulus

def sub (c d : ResidueClass E) : Except Failure (ResidueClass E) := do
  c.check d
  of (c.value - d.value) c.modulus

def mul (c d : ResidueClass E) : Except Failure (ResidueClass E) := do
  c.check d
  of (c.value * d.value) c.modulus

def neg (c : ResidueClass E) : Except Failure (ResidueClass E) :=
  of (0 - c.value) c.modulus

/-- The inverse of a class whose members are coprime to the modulus. -/
def inverse (c : ResidueClass E) : Except Failure (ResidueClass E) := do
  of (← Euclidean.inverseMod c.value c.modulus) c.modulus

def same (c d : ResidueClass E) : Bool :=
  Euclidean.same c.modulus d.modulus && Euclidean.same c.value d.value

end ResidueClass

end PolyIdeal
