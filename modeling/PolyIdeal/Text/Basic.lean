import PolyIdeal.Text.Unprintable

/-!
# Written forms of lists

Exponent vectors are written as tuples, where a single entry keeps its comma, and lists of things in
square brackets. A quoted name is set in single quotes unless it holds one and no double quote, and
characters without a printed form are escaped by their code point.
-/

namespace PolyIdeal.Text

/-- Entries between round brackets; a tuple of one entry is `(a,)`. -/
def tuple : List String → String
  | [] => "()"
  | [a] => "(" ++ a ++ ",)"
  | as => "(" ++ ", ".intercalate as ++ ")"

def bracketed (as : List String) : String :=
  "[" ++ ", ".intercalate as ++ "]"

def integer (n : Int) : String :=
  match n with
  | .ofNat k => Nat.repr k
  | .negSucc k => "-" ++ Nat.repr (k + 1)

def exponents (m : List Int) : String :=
  tuple (m.map integer)

def hexDigit (n : Nat) : Char :=
  if n < 10 then Char.ofNat (48 + n) else Char.ofNat (87 + n)

/-- Hexadecimal digits of `n`, padded with zeros to `width` places. -/
def hex (width n : Nat) : String :=
  String.ofList ((List.range width).reverse.map fun i => hexDigit ((n >>> (4 * i)) % 16))

/-- One character of a quoted name. -/
def quotedChar (quote c : Char) : String :=
  if c = quote ∨ c = '\\' then String.ofList ['\\', c]
  else if c = '\n' then "\\n"
  else if c = '\r' then "\\r"
  else if c = '\t' then "\\t"
  else if isUnprintable c then
    if c.toNat < 256 then "\\x" ++ hex 2 c.toNat
    else if c.toNat < 65536 then "\\u" ++ hex 4 c.toNat
    else "\\U" ++ hex 8 c.toNat
  else String.ofList [c]

def quoted (s : String) : String :=
  let quote := if s.contains '\'' && !s.contains '"' then '"' else '\''
  String.ofList [quote] ++ String.join (s.toList.map (quotedChar quote)) ++ String.ofList [quote]

end PolyIdeal.Text
