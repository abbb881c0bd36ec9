import PolyIdeal.Builder.Basic
import PolyIdeal.Random.Source

/-!
# Random ideals

Monomials by stars and bars: the cuts among `degree + nvars` places divide a total of at most
`degree` among the variables. Polynomials and ideals draw their terms and generators one after the
other.
-/

namespace PolyIdeal

/-- The exponents between the sorted cuts. -/
def gaps : List Nat → List Int
  | [] => []
  | c :: cuts => (c : Int) :: between c cuts
where
  between (c : Nat) : List Nat → List Int
    | [] => []
    | d :: cuts => ((d : Int) - c - 1) :: between d cuts

/-- The exponents of the monomial for some cuts. -/
def exponentsOfCuts (cuts : List Nat) : Except Failure (List Int) :=
  match cuts.mergeSort (· ≤ ·) with
  | [] => .error .outOfRange
  | cuts => .ok (gaps cuts)

def randomMonomial {σ : Type} (source : RandomSource σ) (nvars degree : Int) (s : σ) :
    Except Failure (List Int × σ) := do
  let (cuts, s) ← source.sample (degree + nvars).toNat nvars s
  return (← exponentsOfCuts cuts, s)

/-- The nonzero integers from `-bound` to `bound`. -/
def nonzeroIntegers (bound : Int) : List Int :=
  ((List.range (2 * bound + 1).toNat).map fun i => Int.ofNat i - bound).filter (· ≠ 0)

variable {R : Type} [Zero R] [DecidableEq R] [Add R] [Sub R] [Mul R] [Neg R] [Coefficient R]

/-- Sets `count` random terms. -/
def setRandomTerms {σ : Type} (source : RandomSource σ) (nvars degree bound : Int) :
    (count : Nat) → Builder R → σ → Except Failure (Builder R × σ)
  | 0, b, s => .ok (b, s)
  | count + 1, b, s => do
    let candidates := nonzeroIntegers bound
    let (i, s) ← source.choose candidates.length s
    let (m, s) ← randomMonomial source nvars degree s
    let (b, outcome) := b.apply (.set m (some (.integer (candidates.getD i 0))))
    outcome
    setRandomTerms source nvars degree bound count b s

def randomPolynomial {σ : Type} (source : RandomSource σ) (nvars degree size bound : Int) (s : σ) :
    Except Failure (Polynomial R × σ) := do
  let b : Builder R ← Builder.create nvars
  let (b, s) ← setRandomTerms source nvars degree bound size.toNat b s
  return (← b.build, s)

def randomPolynomials {σ : Type} (source : RandomSource σ) (nvars degree size bound : Int) :
    (count : Nat) → σ → Except Failure (List (Polynomial R))
  | 0, _ => .ok []
  | count + 1, s => do
    let (p, s) ← randomPolynomial source nvars degree size bound s
    return p :: (← randomPolynomials source nvars degree size bound count s)

/-- The bound of the coefficients of random ideals. -/
def coefficientBound : Int := 10

/-- Generators of a random ideal, without zeros. -/
def randomIdeal {σ : Type} (source : RandomSource σ) (nvars degree size generators : Int) (s : σ) :
    Except Failure (List (Polynomial R)) := do
  let ps ← randomPolynomials source nvars degree size coefficientBound generators.toNat s
  return ps.filter fun p => !p.isZero

def seededIdeal (nvars degree size generators seed : Int) : Except Failure (List (Polynomial R)) :=
  randomIdeal RandomSource.twister nvars degree size generators (Twister.ofSeed seed)

end PolyIdeal
