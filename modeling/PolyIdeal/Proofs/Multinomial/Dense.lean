import PolyIdeal.Proofs.Coefficient.Exact
import PolyIdeal.Proofs.Polynomial.Arithmetic
import PolyIdeal.Proofs.Tensor.Region

/-!
# Dense arithmetic

Sums, differences, opposites, products and multiples computed on whole tensors: an operand is padded
to the shape of the result, blocks are shifted and accumulated in it, and what comes out is trimmed.
No shapes of the operands lead beside a tensor, and the coefficients are those of the polynomial
ring.
-/

namespace PolyIdeal

open Monomial

namespace Multinomial

variable {R : Type} [CommRing R] [DecidableEq R]

section Programs

/-- The tensor of `p` enlarged to cover that of `q`. -/
def padded? (p q : Multinomial R) : Except Failure (Tensor R) :=
  (Tensor.zeros (List.zipWith max p.tensor.shape q.tensor.shape)).combine? (fun _ c => c)
    (unit p.tensor.shape.length) p.tensor

/-- The tensor of `q` joined to that of `p`, entry by entry. -/
def entrywise? (op : R → R → R) (p q : Multinomial R) : Except Failure (Tensor.Indexed R) := do
  let padded ← p.padded? q
  let result ← padded.combine? op (unit q.tensor.shape.length) q.tensor
  result.indexed?

def opposite? (p : Multinomial R) : Except Failure (Tensor.Indexed R) :=
  (p.tensor.map (-·)).indexed?

def zero? (p : Multinomial R) : Except Failure (Tensor.Indexed R) :=
  (Tensor.zeros (Tensor.covering p.nvars [])).indexed?

/-- The tensor of `q`, scaled and shifted by every term of `p`. -/
def product? (p q : Multinomial R) : Except Failure (Tensor.Indexed R) :=
  if p.isZero || q.isZero then p.zero?
  else do
    let zeros := Tensor.zeros (List.zipWith (fun a b => a + b - 1) p.tensor.shape q.tensor.shape)
    let result ← p.terms.foldlM (fun t s => t.combine? (· + ·) s.1 (q.tensor.map (s.2 * ·))) zeros
    result.indexed?

/-- Every term of `p`, scaled and moved by `u`. -/
def multiple? (p : Multinomial R) (u : Monomial) (c : R) : Except Failure (Tensor.Indexed R) :=
  if p.isZero ∨ c = 0 then p.zero?
  else do
    let zeros := Tensor.zeros (List.zipWith (· + ·) u p.tensor.shape)
    let result ← p.terms.foldlM (fun t s => t.write? (Monomial.mul s.1 u) (c * s.2)) zeros
    result.indexed?

def scaled? (p : Multinomial R) (c : R) : Except Failure (Tensor.Indexed R) :=
  if c = 0 then p.zero? else p.multiple? (unit p.nvars) c

end Programs

/-- Whether a dense computation comes to a polynomial. -/
def IsComputed (r : Multinomial R) (computed : Except Failure (Tensor.Indexed R)) : Prop :=
  computed = .ok ⟨r.tensor, r.terms⟩

private theorem isComputed_of_get {s t : Tensor R} {shape : List ℕ} (h : s.shape ≠ [])
    (ht : t.shape = shape) (hs : s.shape = shape)
    (hget : ∀ m, Tensor.inside shape m = true → t.get m = s.get m) :
    IsComputed (ofTensor s h) t.indexed? := by
  obtain rfl := Tensor.ext_get ht hs hget
  exact Tensor.indexed?_eq

private theorem isComputed_zero (p : Multinomial R) : IsComputed p.zeroLike p.zero? :=
  Tensor.indexed?_eq

section Entrywise

variable {p q : Multinomial R} (h : p.nvars = q.nvars)
include h

omit [DecidableEq R] in
private theorem padded?_ok : ∃ t, p.padded? q = .ok t ∧
    t.shape = List.zipWith max p.tensor.shape q.tensor.shape ∧
    ∀ m, Tensor.inside t.shape m = true → t.get m = p.coefficient m := by
  obtain ⟨t, ht, hshape, hget⟩ := Tensor.combine?_ok (t := Tensor.zeros _) (fun _ c : R => c)
    p.tensor (Tensor.fits_max h).1 fun m => (Tensor.get_zeros _ m).symm
  refine ⟨t, ht, hshape, fun m hm => ?_⟩
  rw [hshape] at hm
  have hlen : m.length = p.tensor.shape.length :=
    (Tensor.inside_length hm).trans (length_zipWith_shape h max)
  rw [hget m hm, Tensor.shifted_unit hlen]
  rfl

private theorem isComputed_entrywise {op : R → R → R} (hop : ∀ c, op c 0 = c)
    (hne : List.zipWith max p.tensor.shape q.tensor.shape ≠ []) :
    IsComputed (ofTensor (Tensor.ofFn (List.zipWith max p.tensor.shape q.tensor.shape) fun m =>
      op (p.coefficient m) (q.coefficient m)) hne) (entrywise? op p q) := by
  obtain ⟨padded, hpadded, hshape, hget⟩ := padded?_ok h
  have hfits := (Tensor.fits_max h).2
  rw [← hshape] at hfits
  obtain ⟨t, ht, hshape', hget'⟩ := Tensor.combine?_ok op q.tensor hfits fun m => hop (padded.get m)
  rw [IsComputed, entrywise?, hpadded]
  simp only [bind, Except.bind, ht]
  refine isComputed_of_get hne (hshape'.trans hshape) rfl fun m hm => ?_
  have hlen : m.length = q.tensor.shape.length :=
    ((Tensor.inside_length hm).trans (length_zipWith_shape h max)).trans h
  rw [Tensor.get_ofFn, if_pos hm, hget' m (hshape ▸ hm), hget m (hshape ▸ hm),
    Tensor.shifted_unit hlen]
  rfl

end Entrywise

private theorem isComputed_neg (p : Multinomial R) : IsComputed (-p) p.opposite? := by
  refine isComputed_of_get (s := Tensor.ofFn p.tensor.shape fun m => -p.coefficient m)
    (t := p.tensor.map (-·)) p.shape_ne_nil (show _ = p.tensor.shape from rfl) rfl fun m hm => ?_
  rw [Tensor.get_ofFn, if_pos hm, Tensor.get_map neg_zero]
  rfl

section Product

variable {p q : Multinomial R} {n : ℕ}

private theorem sumAt_shifted {u m : Monomial} (hq : q.nvars = n) (hu : u.length = n)
    (hm : m.length = n) (c : R) : sumAt (q.terms.map fun s => (Monomial.mul u s.1, c * s.2)) m =
      (q.tensor.map (c * ·)).shifted u m := by
  have hlen (s : Monomial × R) (hs : s ∈ q.terms) : s.1.length = n :=
    (Polynomial.length_of_mem_terms (p := .multinomial q) hs).trans hq
  rw [Tensor.shifted]
  split
  · rename_i v hv
    have hinj (s : Monomial × R) (hs : s ∈ q.terms.map fun s => (s.1, c * s.2))
        (heq : Monomial.mul u s.1 = Monomial.mul u v) : s.1 = v := by
      obtain ⟨s', hs', rfl⟩ := List.mem_map.mp hs
      have hv' := (div?_eq_some_iff hm hu).mpr
        ⟨hlen s' hs', heq.trans ((div?_eq_some_iff hm hu).mp hv).2⟩
      exact Option.some.inj (hv'.symm.trans hv)
    have hsum := sumAt_map hinj
    rw [List.map_map, sumAt_map_mul, ((div?_eq_some_iff hm hu).mp hv).2] at hsum
    rw [Tensor.get_map (mul_zero c)]
    exact hsum.trans (congrArg (c * ·) (Polynomial.sumAt_terms (.multinomial q) v))
  · rename_i hnone
    apply sumAt_of_not_mem
    intro a ha
    obtain ⟨s, hs, heq⟩ := List.mem_map.mp ha
    have hsome := (div?_eq_some_iff hm hu).mpr ⟨hlen s hs, congrArg Prod.fst heq⟩
    rw [hnone] at hsome
    cases hsome

private theorem foldlM_combine?_ok {shape : List ℕ} (hshape : shape.length = n) (hq : q.nvars = n)
    {l : List (Monomial × R)}
    (hfits : ∀ s ∈ l, Tensor.fits shape s.1 q.tensor.shape = true ∧ s.1.length = n)
    {t : Tensor R} (ht : t.shape = shape) :
    ∃ t', l.foldlM (fun t s => t.combine? (· + ·) s.1 (q.tensor.map (s.2 * ·))) t = .ok t' ∧
      t'.shape = shape ∧ ∀ m, Tensor.inside shape m = true → t'.get m = t.get m +
        sumAt (l.flatMap fun s => q.terms.map fun s' => (Monomial.mul s.1 s'.1, s.2 * s'.2)) m := by
  induction l generalizing t with
  | nil => exact ⟨t, rfl, ht, fun m _ => (add_zero _).symm⟩
  | cons s l ih =>
    obtain ⟨hfit, hs⟩ := hfits s List.mem_cons_self
    rw [← ht] at hfit
    obtain ⟨t₁, ht₁, hshape₁, hget₁⟩ := Tensor.combine?_ok (· + ·) (q.tensor.map (s.2 * ·))
      hfit fun m => add_zero (t.get m)
    obtain ⟨t₂, ht₂, hshape₂, hget₂⟩ := ih (fun s hs => hfits s (List.mem_cons_of_mem _ hs))
      (hshape₁.trans ht)
    refine ⟨t₂, ?_, hshape₂, fun m hm => ?_⟩
    · rw [List.foldlM_cons, ht₁]
      exact ht₂
    · have hlen : m.length = n := (Tensor.inside_length hm).trans hshape
      rw [hget₂ m hm, hget₁ m (ht ▸ hm), List.flatMap_cons, sumAt_append,
        sumAt_shifted hq hs hlen, add_assoc]

private theorem isComputed_mul (h : p.nvars = q.nvars) : IsComputed (p * q) (p.product? q) := by
  by_cases hzero : (p.isZero || q.isZero) = true
  · rw [product?, if_pos hzero, show p * q = p.zeroLike from if_pos hzero]
    exact isComputed_zero p
  · have hfits (s : Monomial × R) (hs : s ∈ p.terms) : Tensor.fits
        (List.zipWith (fun a b => a + b - 1) p.tensor.shape q.tensor.shape) s.1 q.tensor.shape =
          true ∧ s.1.length = p.nvars := by
      have hin := Tensor.inside_of_get_ne_zero (get_ne_zero_of_mem_terms hs)
      exact ⟨Tensor.fits_product h hin, Tensor.inside_length hin⟩
    obtain ⟨t, ht, hshape, hget⟩ := foldlM_combine?_ok (length_zipWith_shape h _) h.symm hfits
      (t := Tensor.zeros _) rfl
    rw [IsComputed, product?, if_neg hzero, show p * q = ofTensor _ _ from if_neg hzero]
    simp only [bind, Except.bind, ht]
    refine isComputed_of_get _ hshape (Tensor.shape_accumulate _ _) fun m hm => ?_
    rw [hget m hm, Tensor.get_zeros, zero_add, Tensor.get_accumulate (inside_productTerms h)]
    rfl

end Product

section Multiple

variable {p : Multinomial R} {u : Monomial}

omit [DecidableEq R] in
private theorem foldlM_write?_ok {shape : List ℕ} {l : List (Monomial × R)}
    (hin : ∀ s ∈ l, Tensor.inside shape s.1 = true) (hnodup : (l.map Prod.fst).Nodup)
    {t : Tensor R} (ht : t.shape = shape) (hzero : ∀ s ∈ l, t.get s.1 = 0) :
    ∃ t', l.foldlM (fun t s => t.write? s.1 s.2) t = .ok t' ∧ t'.shape = shape ∧
      ∀ m, t'.get m = t.get m + sumAt l m := by
  induction l generalizing t with
  | nil => exact ⟨t, rfl, ht, fun m => (add_zero _).symm⟩
  | cons s l ih =>
    obtain ⟨hs, hnodup⟩ := List.nodup_cons.mp hnodup
    obtain ⟨t₁, ht₁, hshape₁, hget₁⟩ := Tensor.write?_ok (ht ▸ hin s List.mem_cons_self) s.2
    -- The terms that follow go to other entries, which are still zero.
    have hzero₁ (r : Monomial × R) (hr : r ∈ l) : t₁.get r.1 = 0 := by
      have hne : r.1 ≠ s.1 := fun heq => hs (heq ▸ List.mem_map_of_mem hr)
      rw [hget₁, if_neg hne, hzero r (List.mem_cons_of_mem s hr)]
    obtain ⟨t₂, ht₂, hshape₂, hget₂⟩ := ih (fun r hr => hin r (List.mem_cons_of_mem s hr)) hnodup
      (hshape₁.trans ht) hzero₁
    refine ⟨t₂, ?_, hshape₂, fun m => ?_⟩
    · rw [List.foldlM_cons, ht₁]
      exact ht₂
    · rw [hget₂, hget₁, sumAt_cons, ← add_assoc]
      by_cases hm : m = s.1
      · rw [if_pos hm, if_pos hm.symm, hm, hzero s List.mem_cons_self, zero_add]
      · rw [if_neg hm, if_neg (Ne.symm hm), add_zero]

private theorem nodup_map_mul (h : u.length = p.nvars) :
    (p.terms.map fun s => Monomial.mul s.1 u).Nodup := by
  have hlen (m : Monomial) (hm : m ∈ p.terms.map Prod.fst) : m.length = p.nvars :=
    Polynomial.length_of_mem_monomials (p := .multinomial p) hm
  have hmap : ((p.terms.map Prod.fst).map fun m => Monomial.mul m u).Nodup :=
    List.Nodup.map_on (fun m hm m' hm' heq =>
      Monomial.mul_right_cancel (hlen m hm) (hlen m' hm') h heq)
      (Polynomial.multinomial p).nodup_monomials
  rwa [List.map_map] at hmap

private theorem isComputed_mulTerm (h : u.length = p.nvars) (c : R) :
    IsComputed (p.mulTerm u h c) (p.multiple? u c) := by
  by_cases hzero : p.isZero ∨ c = 0
  · rw [multiple?, if_pos hzero, mulTerm, if_pos hzero]
    exact isComputed_zero p
  · have hin : ∀ s ∈ p.terms.map fun s => (Monomial.mul s.1 u, c * s.2),
        Tensor.inside (List.zipWith (· + ·) u p.tensor.shape) s.1 = true :=
      List.forall_mem_map.mpr fun s hs => inside_mul_of_mem_terms h hs
    have hnodup : ((p.terms.map fun s => (Monomial.mul s.1 u, c * s.2)).map Prod.fst).Nodup := by
      rw [List.map_map]
      exact nodup_map_mul h
    obtain ⟨t, ht, hshape, hget⟩ := foldlM_write?_ok hin hnodup (t := Tensor.zeros _) rfl
      fun s _ => Tensor.get_zeros _ s.1
    rw [List.foldlM_map] at ht
    rw [IsComputed, multiple?, if_neg hzero, mulTerm, if_neg hzero]
    simp only [bind, Except.bind, ht]
    refine isComputed_of_get _ hshape (Tensor.shape_accumulate _ _) fun m _ => ?_
    rw [hget, Tensor.get_zeros, zero_add, Tensor.get_accumulate hin]

private theorem isComputed_scale (p : Multinomial R) (c : R) :
    IsComputed (p.mulTerm (unit p.nvars) (by simp [unit]) c) (p.scaled? c) := by
  by_cases hc : c = 0
  · rw [scaled?, if_pos hc, mulTerm, if_pos (.inr hc)]
    exact isComputed_zero p
  · rw [scaled?, if_neg hc]
    exact isComputed_mulTerm _ c

end Multiple

section Ring

variable {p q : Multinomial R} {n : ℕ}

/-- An operation comes to a polynomial in `n` variables with the coefficients, and so does its
computation on whole tensors. -/
def Gives (n : ℕ) (result : Except Failure (Polynomial R))
    (computed : Except Failure (Tensor.Indexed R)) (coefficientAt : (Fin n →₀ ℕ) → R) : Prop :=
  ∃ r : Multinomial R, result = .ok (.multinomial r) ∧ r.nvars = n ∧ IsComputed r computed ∧
    ∀ w, r.coefficient (ofExponents w) = coefficientAt w

private theorem gives_of_denote {result : Except Failure (Polynomial R)}
    {computed : Except Failure (Tensor.Indexed R)} {coefficientAt : (Fin n →₀ ℕ) → R}
    {r : Multinomial R} {F : MvPolynomial (Fin n) R} (hresult : result = .ok (.multinomial r))
    (hspec : ∃ f, result = .ok f ∧ f.nvars = n ∧ f.denote n = F) (hr : IsComputed r computed)
    (hcoeff : ∀ w, F.coeff w = coefficientAt w) : Gives n result computed coefficientAt := by
  obtain ⟨f, hok, hn, hdenote⟩ := hspec
  obtain rfl := Except.ok.inj (hresult.symm.trans hok)
  refine ⟨r, hresult, hn, hr, fun w => ?_⟩
  rw [← hcoeff, ← hdenote, Polynomial.coeff_denote hn]
  rfl

/-- The arithmetic of the polynomial ring in `n` variables on two polynomials, a monomial and a
coefficient, as it is computed on whole tensors. -/
structure DenseArithmetic (n : ℕ) (p q : Multinomial R) (u : Fin n →₀ ℕ) (c : R) : Prop where
  sum : Gives n ((Polynomial.multinomial p).add (.multinomial q)) (entrywise? (· + ·) p q)
    fun w => p.coefficient (ofExponents w) + q.coefficient (ofExponents w)
  difference : Gives n ((Polynomial.multinomial p).sub (.multinomial q)) (entrywise? (· - ·) p q)
    fun w => p.coefficient (ofExponents w) - q.coefficient (ofExponents w)
  opposite : Gives n (.ok (-Polynomial.multinomial p)) p.opposite?
    fun w => -p.coefficient (ofExponents w)
  product : Gives n ((Polynomial.multinomial p).mul (.multinomial q)) (p.product? q)
    fun w => ∑ x ∈ Finset.HasAntidiagonal.antidiagonal w,
      p.coefficient (ofExponents x.1) * q.coefficient (ofExponents x.2)
  scaled : Gives n (.ok ((Polynomial.multinomial p).scale c)) (p.scaled? c)
    fun w => c * p.coefficient (ofExponents w)
  multiple : Gives n ((Polynomial.multinomial p).mulTerm (ofExponents u) c)
    (p.multiple? (ofExponents u) c)
    fun w => if u ≤ w then c * p.coefficient (ofExponents (w - u)) else 0

/-- Dense arithmetic never leaves the tensors, whatever their shapes are. -/
theorem dense_arithmetic (hp : p.nvars = n) (hq : q.nvars = n) (u : Fin n →₀ ℕ) (c : R) :
    DenseArithmetic n p q u c := by
  have hpq : p.nvars = q.nvars := hp.trans hq.symm
  have hu : (ofExponents u).length = p.nvars := (length_ofExponents u).trans hp.symm
  have hP (w : Fin n →₀ ℕ) : ((Polynomial.multinomial p).denote n).coeff w =
      p.coefficient (ofExponents w) := Polynomial.coeff_denote (p := .multinomial p) hp w
  have hQ (w : Fin n →₀ ℕ) : ((Polynomial.multinomial q).denote n).coeff w =
      q.coefficient (ofExponents w) := Polynomial.coeff_denote (p := .multinomial q) hq w
  have hneg := Polynomial.neg_spec (p := .multinomial p) hp
  have hscale := Polynomial.scale_spec (p := .multinomial p) hp c
  refine ⟨?_, ?_, ?_, ?_, ?_, ?_⟩
  · refine gives_of_denote (r := p + q) (if_pos hpq) (Polynomial.add_ok hp hq)
      (isComputed_entrywise hpq add_zero _) fun w => ?_
    rw [MvPolynomial.coeff_add, hP, hQ]
  · refine gives_of_denote (r := p - q) (if_pos hpq) (Polynomial.sub_ok hp hq)
      (isComputed_entrywise hpq sub_zero _) fun w => ?_
    rw [MvPolynomial.coeff_sub, hP, hQ]
  · refine gives_of_denote (r := -p) rfl ⟨_, rfl, hneg⟩ (isComputed_neg p) fun w => ?_
    rw [MvPolynomial.coeff_neg, hP]
  · refine gives_of_denote (r := p * q) (if_pos hpq) (Polynomial.mul_ok hp hq)
      (isComputed_mul hpq) fun w => ?_
    rw [MvPolynomial.coeff_mul]
    exact Finset.sum_congr rfl fun x _ => by rw [hP, hQ]
  · refine gives_of_denote rfl ⟨_, rfl, hscale⟩ (isComputed_scale p c) fun w => ?_
    rw [MvPolynomial.coeff_C_mul, hP]
  · refine gives_of_denote (dif_pos hu) (Polynomial.mulTerm_ok (p := .multinomial p) hp u c)
      (isComputed_mulTerm hu c) fun w => ?_
    rw [MvPolynomial.coeff_monomial_mul', hP]

/-- Modulo four the leading terms of `2 * X + Y` and `2 * X * Y` cancel in the product. -/
theorem dense_arithmetic_zeroDivisors :
    DenseArithmetic (R := Residue 4) 2 (.ofTerms 2 (by decide) [([1, 0], 2), ([0, 1], 1)])
      (.ofTerms 2 (by decide) [([1, 1], 2)]) (.single 0 1) 2 :=
  dense_arithmetic (nvars_ofTerms _ _ _) (nvars_ofTerms _ _ _) _ _

end Ring

end Multinomial

end PolyIdeal
