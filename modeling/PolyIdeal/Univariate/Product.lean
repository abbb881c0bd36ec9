import PolyIdeal.Univariate.Basic

/-!
# Products in one variable

Two ways to multiply: the convolution of the coefficients, and Karatsuba's method with three
products of half the size.
-/

namespace PolyIdeal.Univariate

variable {R : Type} [Zero R] [DecidableEq R] [Add R] [Sub R] [Mul R] [Neg R]

/-- The coefficients of `acc + as * bs`, settled from the lowest. -/
def convolveOnto (bs : List R) : List R → List R → List R
  | [], acc => acc
  | a :: as, acc =>
    match addCoefficients acc (bs.map (a * ·)) with
    | [] => convolveOnto bs as []
    | c :: rest => c :: convolveOnto bs as rest

def convolution (p q : Univariate R) : Univariate R :=
  if p.isZero then p
  else if q.isZero then q
  else ofCoefficients (convolveOnto q.coefficients p.coefficients [])

instance : Mul (Univariate R) := ⟨convolution⟩

def low (p : Univariate R) (d : Nat) : Univariate R :=
  ofCoefficients (p.coefficients.take d)

/-- The quotient by `X^d`, without remainder. -/
def high (p : Univariate R) (d : Nat) : Univariate R :=
  ofCoefficients (p.coefficients.drop d)

/-- Adds `bs` to `as` from place `d` on. A place behind the last one is out of range. -/
def addOnto : List R → Nat → List R → Except Failure (List R)
  | as, _, [] => .ok as
  | [], _, _ :: _ => .error .outOfRange
  | a :: as, 0, b :: bs => do return (a + b) :: (← addOnto as 0 bs)
  | a :: as, d + 1, b :: bs => do return a :: (← addOnto as d (b :: bs))

/-- The lists `bd`, `middle` and `ac` added up `d` places apart, in a list of a given length. -/
def overlay (length d : Nat) (bd middle ac : List R) : Except Failure (List R) := do
  let r ← addOnto (List.replicate length 0) 0 bd
  let r ← addOnto r d middle
  addOnto r (2 * d) ac

omit [Add R] [Sub R] [Mul R] [Neg R] in
theorem length_trimZeros_le (as : List R) : (trimZeros as).length ≤ as.length := by
  induction as with
  | nil => simp [trimZeros]
  | cons a as ih =>
    rw [trimZeros]
    split
    · split <;> simp
    · rename_i h
      rw [h] at ih
      simpa using ih

omit [Add R] [Sub R] [Mul R] [Neg R] in
theorem size_low_le (p : Univariate R) (d : Nat) : (p.low d).size ≤ d :=
  Nat.le_trans (length_trimZeros_le _) (by rw [List.length_take]; omega)

omit [Add R] [Sub R] [Mul R] [Neg R] in
theorem size_high_le (p : Univariate R) (d : Nat) : (p.high d).size ≤ p.size - d :=
  Nat.le_trans (length_trimZeros_le _) (by rw [List.length_drop]; exact Nat.le_refl _)

omit [Zero R] [DecidableEq R] [Sub R] [Mul R] [Neg R] in
theorem length_addCoefficients (as bs : List R) :
    (addCoefficients as bs).length = max as.length bs.length := by
  induction as generalizing bs with
  | nil => simp [addCoefficients]
  | cons a as ih => cases bs <;> simp [addCoefficients, ih]

omit [Sub R] [Mul R] [Neg R] in
theorem size_add_le (p q : Univariate R) : (p + q).size ≤ max p.size q.size :=
  Nat.le_trans (length_trimZeros_le _) (by simp [length_addCoefficients, size])

/-- With `Y = X^d`, the product of `a1*Y + a0` and `b1*Y + b0` is
`ac*Y^2 + ((a1+a0)*(b1+b0) - ac - bd)*Y + bd` for `ac = a1*b1` and `bd = a0*b0`. The larger size
alone decides how much room there is for the sum. -/
def karatsuba (p q : Univariate R) : Except Failure (Univariate R) :=
  if p.isZero then .ok p
  else if q.isZero then .ok q
  else if h : max p.size q.size ≤ 1 then
    .ok (ofCoefficients [p.coefficient 0 * q.coefficient 0])
  else do
    let d := max p.size q.size / 2
    let ac ← karatsuba (p.high d) (q.high d)
    let bd ← karatsuba (p.low d) (q.low d)
    let t ← karatsuba (p.high d + p.low d) (q.high d + q.low d)
    let middle := t - ac - bd
    let r ← overlay (2 * max p.size q.size - 1) d bd.coefficients middle.coefficients
      ac.coefficients
    return ofCoefficients r
  termination_by max p.size q.size
  decreasing_by
    · have := size_high_le p (max p.size q.size / 2)
      have := size_high_le q (max p.size q.size / 2)
      omega
    · have := size_low_le p (max p.size q.size / 2)
      have := size_low_le q (max p.size q.size / 2)
      omega
    · have := size_high_le p (max p.size q.size / 2)
      have := size_high_le q (max p.size q.size / 2)
      have := size_low_le p (max p.size q.size / 2)
      have := size_low_le q (max p.size q.size / 2)
      have := size_add_le (p.high (max p.size q.size / 2)) (p.low (max p.size q.size / 2))
      have := size_add_le (q.high (max p.size q.size / 2)) (q.low (max p.size q.size / 2))
      omega

/-- The ways to multiply. -/
inductive Method
  | convolution
  | karatsuba

def Method.named? (name : String) : Except Failure Method :=
  match name with
  | "convolution" => .ok .convolution
  | "karatsuba" => .ok .karatsuba
  | _ => .error (.invalid (.multiplicationMethod name))

def multiply (method : Method) (p q : Univariate R) : Except Failure (Univariate R) :=
  match method with
  | .convolution => .ok (p.convolution q)
  | .karatsuba => p.karatsuba q

end PolyIdeal.Univariate
