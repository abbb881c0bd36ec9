import PolyIdeal.Monomial.Basic

/-!
# Monomial orders

An order ranks a monomial by a list of numbers, and ranks are compared lexicographically. Grading
puts the total degree in front of the rank of the base order.
-/

namespace PolyIdeal

/-- An arrangement of the variables, the most significant one first. -/
structure Permutation where
  images : List Nat
  isPerm : images.isPerm (List.range images.length) = true
  deriving DecidableEq

namespace Permutation

def ofInts? (images : List Int) : Except Failure Permutation :=
  if h : images.all (0 ≤ ·) ∧
      (images.map Int.toNat).isPerm (List.range (images.map Int.toNat).length) = true then
    .ok ⟨images.map Int.toNat, h.2⟩
  else .error (.invalid (.notAPermutation images))

end Permutation

inductive Order
  /-- The first differing exponent from the left decides. -/
  | lex
  /-- The first differing exponent from the right decides. -/
  | revlex
  /-- Lexicographic after rearranging the variables. -/
  | permuted (arrangement : Permutation)
  /-- Total degree first, ties are broken by the base order. -/
  | degree (base : Order)
  /-- The same order as `degree lex`, under a name of its own. -/
  | degLex
  deriving DecidableEq

namespace Order

variable {α : Type}

/-- The list of numbers by which a monomial is ranked. -/
def rank [Add α] [OfNat α 0] : Order → List α → List α
  | lex, m => m
  | revlex, m => m.reverse
  | permuted p, m => p.images.map fun i => m.getD i 0
  | degree base, m => Monomial.totalDegree m :: base.rank m
  | degLex, m => Monomial.totalDegree m :: m

/-- The arrangement that fixes the number of variables, if there is one. -/
def arrangement? : Order → Option Permutation
  | permuted p => some p
  | degree base => base.arrangement?
  | _ => none

/-- Whether monomials in `nvars` variables can be ranked. -/
def accepts (order : Order) (nvars : Nat) : Bool :=
  order.arrangement?.all fun p => p.images.length == nvars

def check (order : Order) (m : List Int) : Except Failure Unit :=
  match order.arrangement? with
  | some p => if p.images.length = m.length then .ok ()
      else .error (.invalid (.permutationMisfit p.images m))
  | none => .ok ()

/-- A rank with the gradings kept apart, the form in which it is shown. -/
inductive Key
  | exponents (m : List Int)
  | graded (degree : Int) (base : Key)

def gradedKey : Order → List Int → Key
  | degree base, m => .graded (Monomial.totalDegree m) (base.gradedKey m)
  | degLex, m => .graded (Monomial.totalDegree m) (.exponents m)
  | order, m => .exponents (order.rank m)

def key? (order : Order) (m : List Int) : Except Failure Key := do
  order.check m
  return order.gradedKey m

/-- The total order on monomials of one arity. -/
def compare [Add α] [OfNat α 0] [DecidableEq α] [LT α] [DecidableLT α] (order : Order)
    (m₁ m₂ : List α) : Ordering :=
  if order.rank m₁ < order.rank m₂ then .lt
  else if order.rank m₂ < order.rank m₁ then .gt
  else .eq

def compare? (order : Order) (m₁ m₂ : List Int) : Except Failure Ordering := do
  Monomial.checkArity m₁ m₂
  order.check m₁
  return order.compare m₁ m₂

/-- The first monomial of highest rank, where `m` leads so far. -/
def maxFrom [Add α] [OfNat α 0] [DecidableEq α] [LT α] [DecidableLT α] (order : Order) (m : List α)
    (ms : List (List α)) : List α :=
  ms.foldl (fun m' x => if order.rank m' < order.rank x then x else m') m

def max? (order : Order) (ms : List (List Int)) : Except Failure (List Int) := do
  ms.forM order.check
  match ms with
  | [] => .error .badValue
  | m :: rest => return order.maxFrom m rest

def ascending [Add α] [OfNat α 0] [DecidableEq α] [LT α] [DecidableLT α] (order : Order)
    (ms : List (List α)) : List (List α) :=
  ms.mergeSort fun a b => !decide (order.rank b < order.rank a)

def descending [Add α] [OfNat α 0] [DecidableEq α] [LT α] [DecidableLT α] (order : Order)
    (ms : List (List α)) : List (List α) :=
  ms.mergeSort fun a b => !decide (order.rank a < order.rank b)

def sorted? (order : Order) (ms : List (List Int)) (reverse : Bool) :
    Except Failure (List (List Int)) := do
  ms.forM order.check
  return if reverse then order.descending ms else order.ascending ms

/-- The order with graded lexicographic orders written in one way. -/
def canonical : Order → Order
  | degree base => .degree base.canonical
  | degLex => .degree .lex
  | order => order

def same (order₁ order₂ : Order) : Bool :=
  order₁.canonical = order₂.canonical

def degRevlex : Order := .degree .revlex

def shortName : Order → String
  | lex => "lex"
  | revlex => "revlex"
  | permuted _ => "permlex"
  | degree base => "deg" ++ base.shortName
  | degLex => "deglex"

def text : Order → String
  | lex => "LexOrder()"
  | revlex => "RevLexOrder()"
  | permuted p => "PermutedLexOrder(" ++ Text.tuple (p.images.map Nat.repr) ++ ")"
  | degree base => "DegreeOrder(" ++ base.text ++ ")"
  | degLex => "DegLexOrder()"

def named? (name : String) : Except Failure Order :=
  match name with
  | "lex" => .ok .lex
  | "revlex" => .ok .revlex
  | "deglex" => .ok .degLex
  | "degrevlex" => .ok degRevlex
  | _ => .error (.invalid (.unknownOrder name))

theorem rank_degLex [Add α] [OfNat α 0] (m : List α) :
    degLex.rank m = (degree lex).rank m := rfl

end Order

/-- A choice of order: an order, or the name of one. -/
inductive OrderChoice
  | given (order : Order)
  | named (name : String)
  deriving DecidableEq

namespace OrderChoice

def resolve : OrderChoice → Except Failure Order
  | given order => .ok order
  | named name => Order.named? name

/-- The order, where a name alone offers no operations. -/
def direct : OrderChoice → Except Failure Order
  | given order => .ok order
  | named _ => .error .noSuchOperation

/-- The order that the chosen one induces on polynomials, as an expression. -/
def inducedText : OrderChoice → String
  | given order => "InducedOrder(" ++ order.text ++ ")"
  | named name => "InducedOrder(" ++ Text.quoted name ++ ")"

/-- Whether two choices were made in the same way; a name is not the order it stands for. -/
def same : OrderChoice → OrderChoice → Bool
  | given o₁, given o₂ => o₁.same o₂
  | named n₁, named n₂ => n₁ == n₂
  | _, _ => false

end OrderChoice

end PolyIdeal
