import PolyIdeal.Multinomial.Basic

/-!
# Arithmetic in several variables

Sums and differences are taken entry by entry over the shape that covers both operands; products add
up the products of terms.
-/

namespace PolyIdeal.Multinomial

variable {R : Type} [Zero R] [DecidableEq R] [Add R] [Sub R] [Mul R] [Neg R]

private theorem zipWith_ne_nil {f : Nat → Nat → Nat} {as bs : List Nat} (ha : as ≠ [])
    (hb : bs ≠ []) : List.zipWith f as bs ≠ [] := by
  cases as <;> cases bs <;> simp_all

/-- The sum of terms, each added at its monomial in turn. -/
def ofTerms (nvars : Nat) (h : 0 < nvars) (terms : List (Monomial × R)) : Multinomial R :=
  ofTensor (Tensor.accumulate (Tensor.covering nvars (terms.map Prod.fst)) terms) (by
    rw [Tensor.shape_accumulate]
    exact List.ne_nil_of_length_pos (by simpa using h))

def zeroLike (p : Multinomial R) : Multinomial R :=
  ofTerms p.nvars p.nvars_pos []

instance : Add (Multinomial R) := ⟨fun p q =>
  ofTensor (Tensor.ofFn (List.zipWith max p.tensor.shape q.tensor.shape) fun m =>
    p.coefficient m + q.coefficient m) (zipWith_ne_nil p.shape_ne_nil q.shape_ne_nil)⟩

instance : Sub (Multinomial R) := ⟨fun p q =>
  ofTensor (Tensor.ofFn (List.zipWith max p.tensor.shape q.tensor.shape) fun m =>
    p.coefficient m - q.coefficient m) (zipWith_ne_nil p.shape_ne_nil q.shape_ne_nil)⟩

instance : Neg (Multinomial R) := ⟨fun p =>
  ofTensor (Tensor.ofFn p.tensor.shape fun m => -p.coefficient m) p.shape_ne_nil⟩

/-- All products of a term of `p` and a term of `q`. -/
def productTerms (p q : Multinomial R) : List (Monomial × R) :=
  p.terms.flatMap fun (u, a) => q.terms.map fun (v, b) => (Monomial.mul u v, a * b)

instance : Mul (Multinomial R) := ⟨fun p q =>
  if p.isZero || q.isZero then p.zeroLike
  else ofTensor
    (Tensor.accumulate (List.zipWith (fun a b => a + b - 1) p.tensor.shape q.tensor.shape)
      (productTerms p q))
    (by rw [Tensor.shape_accumulate]; exact zipWith_ne_nil p.shape_ne_nil q.shape_ne_nil)⟩

/-- The product `c * X^u * p`, for a monomial `u` in the variables of `p`. -/
def mulTerm (p : Multinomial R) (u : Monomial) (h : u.length = p.nvars) (c : R) : Multinomial R :=
  if p.isZero ∨ c = 0 then p.zeroLike
  else ofTensor
    (Tensor.accumulate (List.zipWith (· + ·) u p.tensor.shape)
      (p.terms.map fun (m, a) => (Monomial.mul m u, c * a)))
    (by
      rw [Tensor.shape_accumulate]
      have : u ≠ [] := List.ne_nil_of_length_pos (by rw [h]; exact p.nvars_pos)
      exact zipWith_ne_nil this p.shape_ne_nil)

/-- The value at a point with one coordinate for each variable. -/
def evaluate [Pow R Nat] (p : Multinomial R) (point : List R) : R :=
  p.terms.foldl (fun sum (m, c) =>
    sum + (point.zip m).foldl (fun value (x, e) => if e = 0 then value else value * x ^ e) c) 0

end PolyIdeal.Multinomial
