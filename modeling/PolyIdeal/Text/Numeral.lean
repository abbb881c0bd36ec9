/-!
# Decimal numerals

An integer is read from decimal digits of any script, with an optional sign, single underscores
between digits, and blanks around it.
-/

namespace PolyIdeal.Text

/-- The code points of the zeros of Unicode 14; the other digits of a script follow its zero. -/
def decimalZeros : Array Nat := #[
  0x30, 0x660, 0x6f0, 0x7c0, 0x966, 0x9e6, 0xa66, 0xae6, 0xb66, 0xbe6, 0xc66, 0xce6, 0xd66, 0xde6,
  0xe50, 0xed0, 0xf20, 0x1040, 0x1090, 0x17e0, 0x1810, 0x1946, 0x19d0, 0x1a80, 0x1a90, 0x1b50,
  0x1bb0, 0x1c40, 0x1c50, 0xa620, 0xa8d0, 0xa900, 0xa9d0, 0xa9f0, 0xaa50, 0xabf0, 0xff10, 0x104a0,
  0x10d30, 0x11066, 0x110f0, 0x11136, 0x111d0, 0x112f0, 0x11450, 0x114d0, 0x11650, 0x116c0,
  0x11730, 0x118e0, 0x11950, 0x11c50, 0x11d50, 0x11da0, 0x16a60, 0x16ac0, 0x16b50, 0x1d7ce,
  0x1d7d8, 0x1d7e2, 0x1d7ec, 0x1d7f6, 0x1e140, 0x1e2f0, 0x1e950, 0x1fbf0]

/-- The code points of the blanks that may surround a numeral. -/
def blanks : Array Nat := #[
  0x9, 0xa, 0xb, 0xc, 0xd, 0x20, 0x85, 0xa0, 0x1680, 0x2000, 0x2001, 0x2002, 0x2003, 0x2004,
  0x2005, 0x2006, 0x2007, 0x2008, 0x2009, 0x200a, 0x2028, 0x2029, 0x202f, 0x205f, 0x3000]

/-- Separators are blanks only in a text that is not plain ASCII. -/
def isBlank (ascii : Bool) (c : Char) : Bool :=
  blanks.contains c.toNat || (!ascii && 0x1c ≤ c.toNat && c.toNat ≤ 0x1f)

def digit? (c : Char) : Option Nat :=
  (decimalZeros.find? fun first => first ≤ c.toNat && c.toNat < first + 10).map (c.toNat - ·)

/-- Digits that may be separated by single underscores, read onto `acc`. -/
def digitsOnto (acc : Nat) : List Char → Option Nat
  | [] => some acc
  | '_' :: c :: cs => (digit? c).bind fun d => digitsOnto (10 * acc + d) cs
  | c :: cs => (digit? c).bind fun d => digitsOnto (10 * acc + d) cs

def natural? : List Char → Option Nat
  | [] => none
  | c :: cs => (digit? c).bind fun d => digitsOnto d cs

def integer? (s : List Char) : Option Int :=
  let blank := isBlank (s.all fun c => c.toNat < 128)
  let s := ((s.dropWhile blank).reverse.dropWhile blank).reverse
  match s with
  | '+' :: s => (natural? s).map Int.ofNat
  | '-' :: s => (natural? s).map fun n => -Int.ofNat n
  | s => (natural? s).map Int.ofNat

end PolyIdeal.Text
