import PolyIdeal.Text.Basic

/-!
# Failures

Every way in which an operation can fail, with the data that its message shows. Polynomials and
coefficients appear in a cause by their written form.
-/

namespace PolyIdeal

/-- Arguments that do not fit an operation. -/
inductive InvalidCause
  | arities (m₁ m₂ : List Int)
  | negativeExponents (m : List Int)
  | notAPermutation (images : List Int)
  | permutationMisfit (images : List Nat) (m : List Int)
  | unknownOrder (name : String)
  | zeroWithoutLeadingMonomial
  | zeroWithoutLeadingCoefficient
  | differentRings (nvars₁ nvars₂ : Nat)
  | differentDomains (domain₁ domain₂ : String)
  | power (exponent : String)
  | pointLength (expected given : Nat)
  | degenerateTensor (domain : String)
  | rankZeroTensor
  | foreignCoefficients (domain : String)
  | monomialArity (m : List Int) (nvars : Int)
  | variableIndex (index nvars : Int)
  | notOneVariable (nvars : Int)
  | notUnivariate (monomials : List (List Int))
  | negativeExponent (i : Int)
  | multiplicationMethod (name : String)
  | noVariables (nvars : Int)
  | builderArity (polynomialVars builderVars : Nat)
  | congruenceCounts (residues moduli : Nat)
  | noCongruences
  | gcdOfNothing
  | mixedIdeals
  | zeroDivisor
  | basisArities (nvars : List Nat)
  | reductionArity (polynomialVars basisVars : Nat)
  | generatorArities
  | generatorDomains
  | ringArity (ring : String) (generators nvars : Nat)
  | idealDistribution (name : String)
  deriving DecidableEq

/-- Divisions and other partial arithmetic that have no answer. -/
inductive ArithmeticCause
  | indivisible (dividend divisor domain : String)
  | divisionBy (divisor : String)
  | inexactQuotient (dividend divisor : String)
  | gcdOfZeros
  | notInvertibleModulo (element modulus gcd : String)
  | zeroModulus
  | mixedModuli (modulus₁ modulus₂ : String)
  | leftover (dividend divisor coefficient : String) (monomial : List Int)
  | shiftedMonomials (shift₁ m₁ shift₂ m₂ : List Int)
  | generatorsNotReduced
  | notAGroebnerBasis
  deriving DecidableEq

/-- Operations that are deliberately not offered. -/
inductive UnsupportedCause
  | divisionOver (domain : String)
  | integrationOver (domain : String)
  | polynomialRingOver (domain : String)
  | gcdOfMany (count : Nat)
  deriving DecidableEq

inductive Failure
  | invalid (cause : InvalidCause)
  | incomparable (p₁ p₂ : String) (monomials₁ monomials₂ : List (List Int))
  | arithmetic (cause : ArithmeticCause)
  | unsupported (cause : UnsupportedCause)
  /-- A cursor was advanced after its builder had changed. -/
  | staleCursor
  /-- A value has no counterpart in a coefficient domain. -/
  | noConversion
  /-- An operator is not defined for its operands. -/
  | noOperator
  /-- An operand lacks the operation that was asked of it. -/
  | noSuchOperation
  /-- A value has the wrong size or shape. -/
  | badValue
  | zeroDivision
  | notInvertible
  | inexact
  | outOfRange
  | exhausted
  deriving DecidableEq

namespace InvalidCause

def message : InvalidCause → String
  | arities m₁ m₂ => "incompatible monomial exponents " ++ Text.exponents m₁ ++ " and " ++
      Text.exponents m₂ ++ " from polynomial rings with a different number of variables"
  | negativeExponents m => "monomial exponents must be nonnegative, got " ++ Text.exponents m
  | notAPermutation images => Text.exponents images ++ " is no permutation of 0.." ++
      Text.integer ((images.length : Int) - 1)
  | permutationMisfit images m => "permutation " ++ Text.tuple (images.map Nat.repr) ++
      " does not fit monomial " ++ Text.exponents m
  | unknownOrder name => "unknown monomial order " ++ Text.quoted name
  | zeroWithoutLeadingMonomial => "zero polynomial has no leading monomial"
  | zeroWithoutLeadingCoefficient => "zero polynomial has no leading coefficient"
  | differentRings n₁ n₂ => "cannot combine polynomials of different polynomial rings with " ++
      Nat.repr n₁ ++ " and " ++ Nat.repr n₂ ++ " variables"
  | differentDomains d₁ d₂ => "cannot combine polynomials over " ++ d₁ ++ " and " ++ d₂ ++
      ", use set_domain first"
  | power exponent => "polynomials only have nonnegative integer powers, got " ++ exponent
  | pointLength expected given => "expected " ++ Nat.repr expected ++ " values, got " ++
      Nat.repr given
  | degenerateTensor domain => "coefficients of degenerate shape or not in " ++ domain
  | rankZeroTensor => "multinomial coefficients must be given as a tensor of rank >= 1"
  | foreignCoefficients domain => "coefficients not in " ++ domain
  | monomialArity m nvars => "monomial " ++ Text.exponents m ++ " does not have " ++
      Text.integer nvars ++ " variables"
  | variableIndex index nvars => "invalid variable index " ++ Text.integer index ++ " for " ++
      Text.integer nvars ++ " variables"
  | notOneVariable nvars => "univariate polynomials have 1 variable, not " ++ Text.integer nvars
  | notUnivariate monomials => "monomials " ++ Text.bracketed (monomials.map Text.exponents) ++
      " are not univariate"
  | negativeExponent i => "negative exponent " ++ Text.integer i
  | multiplicationMethod name => "unknown multiplication method " ++ Text.quoted name ++
      ", expected one of ('convolution', 'karatsuba')"
  | noVariables nvars => "polynomials need at least one variable, got " ++ Text.integer nvars
  | builderArity p b => "cannot add a polynomial in " ++ Nat.repr p ++
      " variables to a builder in " ++ Nat.repr b ++ " variables"
  | congruenceCounts residues moduli => Nat.repr residues ++ " residues but " ++
      Nat.repr moduli ++ " moduli"
  | noCongruences => "no congruences to solve"
  | gcdOfNothing => "gcd of no elements"
  | mixedIdeals => "residues modulo different ideals do not mix"
  | zeroDivisor => "cannot reduce modulo the zero polynomial"
  | basisArities nvars => "basis polynomials with different numbers of variables " ++
      Text.bracketed (nvars.map Nat.repr)
  | reductionArity p b => "cannot reduce a polynomial in " ++ Nat.repr p ++
      " variables modulo a basis in " ++ Nat.repr b ++ " variables"
  | generatorArities => "generators with different numbers of variables"
  | generatorDomains => "generators over different coefficient domains"
  | ringArity ring generators nvars => "ring " ++ ring ++ " has " ++ Nat.repr generators ++
      " generators, polynomial has " ++ Nat.repr nvars ++ " variables"
  | idealDistribution name => "unknown ideal distribution " ++ Text.quoted name ++
      ", expected 'n-d-s-uniform'"

end InvalidCause

namespace ArithmeticCause

def message : ArithmeticCause → String
  | indivisible a b domain => b ++ " does not divide " ++ a ++ " in " ++ domain
  | divisionBy g => "/ by " ++ g
  | inexactQuotient f g => g ++ " does not divide " ++ f
  | gcdOfZeros => "gcd(0, 0) is undefined"
  | notInvertibleModulo a modulus gcd => a ++ " is not invertible modulo " ++ modulus ++
      ", gcd " ++ gcd
  | zeroModulus => "residue classes modulo zero"
  | mixedModuli m₁ m₂ => "residue classes modulo " ++ m₁ ++ " and " ++ m₂ ++ " do not mix"
  | leftover f g c nu => "reducing " ++ f ++ " by " ++ g ++ " left " ++ c ++ " at " ++
      Text.exponents nu
  | shiftedMonomials nu lmf mu lmg => "shifted leading monomials differ: " ++ Text.exponents nu ++
      "*" ++ Text.exponents lmf ++ " != " ++ Text.exponents mu ++ "*" ++ Text.exponents lmg
  | generatorsNotReduced => "a generator does not reduce to zero modulo the computed basis"
  | notAGroebnerBasis => "the computed basis is not a Groebner basis"

end ArithmeticCause

namespace UnsupportedCause

def message : UnsupportedCause → String
  | divisionOver domain => "Euclidean division requires field coefficients, not " ++ domain
  | integrationOver domain => "integration requires field coefficients, not " ++ domain
  | polynomialRingOver domain => "K[X] is only Euclidean over a field, not over " ++ domain
  | gcdOfMany count => "gcd of " ++ Nat.repr count ++ " > 2 elements is not supported"

end UnsupportedCause

namespace Failure

/-- The text of a failure, for those that carry one. -/
def message? : Failure → Option String
  | invalid cause => some cause.message
  | incomparable p₁ p₂ ms₁ ms₂ => some ("incomparable arguments " ++ p₁ ++ " and " ++ p₂ ++
      " with (sorted) monomial occurrences " ++ Text.bracketed (ms₁.map Text.exponents) ++
      " and " ++ Text.bracketed (ms₂.map Text.exponents))
  | arithmetic cause => some cause.message
  | unsupported cause => some cause.message
  | staleCursor => some "polynomial builder modified during iteration"
  | _ => none

end Failure

end PolyIdeal
