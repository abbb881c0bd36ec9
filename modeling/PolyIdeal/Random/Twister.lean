/-!
# The Mersenne twister

The generator MT19937 with its seeding by a list of words, and random numbers below a bound drawn
from its bits.
-/

namespace PolyIdeal

/-- The 624 words of the state, and the place of the next one. -/
structure Twister where
  words : Array UInt32
  index : Nat

namespace Twister

def size : Nat := 624

/-- The state seeded by a single word. -/
def ofWord (seed : UInt32) : Array UInt32 :=
  (List.range (size - 1)).foldl (fun words i =>
    let last := words.getD i 0
    words.push ((last ^^^ (last >>> 30)) * 1812433253 + UInt32.ofNat (i + 1))) #[seed]

/-- Carries the last word to the front when the end is reached. -/
def wrapped (words : Array UInt32) (i : Nat) : Array UInt32 × Nat :=
  if i + 1 ≥ size then (words.set! 0 (words.getD (size - 1) 0), 1) else (words, i + 1)

def mixKey (key : Array UInt32) :
    Nat → Array UInt32 → (i j : Nat) → Array UInt32 × Nat
  | 0, words, i, _ => (words, i)
  | k + 1, words, i, j =>
    let last := words.getD (i - 1) 0
    let word := (words.getD i 0 ^^^ ((last ^^^ (last >>> 30)) * 1664525)) + key.getD j 0 +
      UInt32.ofNat j
    let (words, i) := wrapped (words.set! i word) i
    mixKey key k words i (if j + 1 ≥ key.size then 0 else j + 1)

def mixIndex : Nat → Array UInt32 → (i : Nat) → Array UInt32
  | 0, words, _ => words
  | k + 1, words, i =>
    let last := words.getD (i - 1) 0
    let word := (words.getD i 0 ^^^ ((last ^^^ (last >>> 30)) * 1566083941)) - UInt32.ofNat i
    let (words, i) := wrapped (words.set! i word) i
    mixIndex k words i

/-- The state seeded by a list of words. -/
def ofKey (key : Array UInt32) : Twister :=
  let (words, i) := mixKey key (max size key.size) (ofWord 19650218) 1 0
  ⟨(mixIndex (size - 1) words i).set! 0 0x80000000, size⟩

/-- The digits of a number in base 2^32, the lowest first. -/
def digits (n : Nat) : List UInt32 :=
  if n < UInt32.size then [UInt32.ofNat n]
  else UInt32.ofNat (n % UInt32.size) :: digits (n / UInt32.size)
  termination_by n
  decreasing_by
    have : 0 < UInt32.size := by decide
    exact Nat.div_lt_self (by omega) (by decide)

def ofSeed (seed : Int) : Twister :=
  ofKey (digits seed.natAbs).toArray

/-- Renews word `i` of the state. -/
def twistAt (words : Array UInt32) (i : Nat) : Array UInt32 :=
  let y := (words.getD i 0 &&& 0x80000000) ||| (words.getD ((i + 1) % size) 0 &&& 0x7fffffff)
  let word := words.getD ((i + 397) % size) 0 ^^^ (y >>> 1)
  words.set! i (if y &&& 1 = 0 then word else word ^^^ 0x9908b0df)

def temper (y : UInt32) : UInt32 :=
  let y := y ^^^ (y >>> 11)
  let y := y ^^^ ((y <<< 7) &&& 0x9d2c5680)
  let y := y ^^^ ((y <<< 15) &&& 0xefc60000)
  y ^^^ (y >>> 18)

def next (t : Twister) : UInt32 × Twister :=
  let t := if t.index ≥ size then ⟨(List.range size).foldl twistAt t.words, 0⟩ else t
  (temper (t.words.getD t.index 0), { t with index := t.index + 1 })

/-- The next `k` random bits as a number, drawn in words from the lowest. -/
def bits (t : Twister) (k : Nat) : Nat × Twister :=
  if k = 0 then (0, t)
  else
    let (word, t) := t.next
    if k ≤ 32 then (word.toNat >>> (32 - k), t)
    else
      let (rest, t) := t.bits (k - 32)
      (word.toNat + UInt32.size * rest, t)
  termination_by k

/-- The first of up to `attempts` random numbers that lies below `n`. -/
def belowWithin (n k : Nat) : (attempts : Nat) → Twister → Nat × Twister
  | 0, t => (0, t)
  | attempts + 1, t =>
    let (r, t) := t.bits k
    if r < n then (r, t) else belowWithin n k attempts t

/-- A random number below `n`. Each attempt succeeds with a chance of at least one half. -/
def below (t : Twister) (n : Nat) : Nat × Twister :=
  belowWithin n (if n = 0 then 0 else Nat.log2 n + 1) 10000 t

end Twister

end PolyIdeal
