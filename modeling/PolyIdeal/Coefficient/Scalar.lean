import PolyIdeal.Coefficient.Basic

/-!
# Numbers of several kinds

Arithmetic and equality of numbers that need not be of one kind. Integers go with every kind,
rationals and real numbers do not mix, and residues take integers modulo their own modulus.
-/

namespace PolyIdeal

/-- The operators of a ring. -/
inductive Operator
  | add
  | sub
  | mul
  deriving DecidableEq

namespace Operator

def apply {α : Type} [Add α] [Sub α] [Mul α] : Operator → α → α → α
  | add => (· + ·)
  | sub => (· - ·)
  | mul => (· * ·)

end Operator

namespace Scalar

/-- The integer that a number stands for, if it stands for one. -/
def integer? : Scalar → Option Int
  | integer n => some n
  | rational q => if q.den = 1 then some q.num else none
  | real x => if x.toRat.den = 1 then some x.toRat.num else none
  | residue _ r => some r.centered

/-- Equality across kinds. A real number never equals a rational one, and a residue on either side
takes the other number modulo its own modulus. -/
def same : Scalar → Scalar → Bool
  | integer a, integer b => a == b
  | integer a, rational q => (a : Rat) == q
  | rational q, integer a => q == (a : Rat)
  | rational p, rational q => p == q
  | integer a, real x => x == Dyadic.ofInt a
  | real x, integer a => x == Dyadic.ofInt a
  | real x, real y => x == y
  | rational _, real _ => false
  | real _, rational _ => false
  | residue n r, b => b.integer?.any fun k => Residue.ofInt n k == r
  | a, residue n r => a.integer?.any fun k => Residue.ofInt n k == r

/-- Applies an operator; `lift` makes an integer operand of a real number real. -/
def combine (lift : Int → Dyadic) (op : Operator) : Scalar → Scalar → Except Failure Scalar
  | integer a, integer b => .ok (.integer (op.apply a b))
  | integer a, rational q => .ok (.rational (op.apply (a : Rat) q))
  | rational q, integer a => .ok (.rational (op.apply q (a : Rat)))
  | rational p, rational q => .ok (.rational (op.apply p q))
  | integer a, real x => .ok (.real (BinaryReal.round (op.apply (lift a) x)).value)
  | real x, integer a => .ok (.real (BinaryReal.round (op.apply x (lift a))).value)
  | real x, real y => .ok (.real (BinaryReal.round (op.apply x y)).value)
  | residue n r, integer a => .ok (.residue n (op.apply r (Residue.ofInt n a)))
  | integer a, residue n r => .ok (.residue n (op.apply (Residue.ofInt n a) r))
  | residue n r, residue m s =>
    if h : m = n then .ok (.residue n (op.apply r (h ▸ s))) else .error .noOperator
  | _, _ => .error .noOperator

def pow : Scalar → Nat → Scalar
  | integer a, k => .integer (Int.pow a k)
  | rational q, k => .rational (Rat.pow q k)
  | real x, k => .real ((⟨x⟩ : BinaryReal) ^ k).value
  | residue n r, k => .residue n (r ^ k)

def neg : Scalar → Scalar
  | integer a => .integer (-a)
  | rational q => .rational (-q)
  | real x => .real (-x)
  | residue n r => .residue n (-r)

def isZero : Scalar → Bool
  | integer a => a == 0
  | rational q => q == 0
  | real x => x == 0
  | residue _ r => r.val == 0

def text : Scalar → String
  | integer a => Coefficient.text a
  | rational q => Coefficient.text q
  | real x => Decimal.shortest x.toRat
  | residue _ r => Coefficient.text r

/-- The number as an expression. -/
def describe : Scalar → String
  | rational q => "MPQ(" ++ Text.integer q.num ++ "," ++ Nat.repr q.den ++ ")"
  | residue n r => "SymmetricModularIntegerMod" ++ Nat.repr n ++ "(" ++ Nat.repr r.val ++ ")"
  | s => s.text

end Scalar

end PolyIdeal
