import PolyIdeal.Proofs.Univariate.Division

/-!
# Karatsuba's method

The three products that the method needs are added up in one list, whose length is found from the
larger factor alone. They always fit, and their sum is the convolution of the factors, also where
products or sums of coefficients vanish.
-/

namespace PolyIdeal.Univariate

variable {R : Type} [CommRing R]

section Overlay

private theorem addOnto_ok (as : List R) (d : ℕ) (bs : List R) (hfit : d + bs.length ≤ as.length) :
    ∃ cs, addOnto as d bs = .ok cs ∧ cs.length = as.length ∧
      horner cs = horner as + MvPolynomial.X 0 ^ d * horner bs := by
  fun_induction addOnto as d bs with
  | case1 as d => exact ⟨as, rfl, rfl, by simp⟩
  | case2 d b bs =>
    rw [List.length_nil, List.length_cons] at hfit
    omega
  | case3 a as b bs ih =>
    simp only [List.length_cons] at hfit
    obtain ⟨cs, hcs, hlength, hsum⟩ := ih (by omega)
    refine ⟨(a + b) :: cs, by rw [hcs]; rfl, by simp [hlength], ?_⟩
    rw [horner_cons, hsum, horner_cons, horner_cons, map_add]
    ring
  | case4 a as d b bs ih =>
    have hfit : d + 1 + (b :: bs).length ≤ as.length + 1 := hfit
    obtain ⟨cs, hcs, hlength, hsum⟩ := ih (by omega)
    refine ⟨a :: cs, by rw [hcs]; rfl, by simp [hlength], ?_⟩
    rw [horner_cons, hsum, horner_cons a as, Nat.succ_eq_add_one, pow_succ]
    ring

private theorem overlay_ok {length d : ℕ} {bd middle ac : List R} (hbd : bd.length ≤ length)
    (hmiddle : d + middle.length ≤ length) (hac : 2 * d + ac.length ≤ length) :
    ∃ r, overlay length d bd middle ac = .ok r ∧
      horner r = horner bd + MvPolynomial.X 0 ^ d * horner middle +
        MvPolynomial.X 0 ^ (2 * d) * horner ac := by
  obtain ⟨r₁, hr₁, hlength₁, hsum₁⟩ :=
    addOnto_ok (List.replicate length (0 : R)) 0 bd (by simpa using hbd)
  rw [List.length_replicate] at hlength₁
  obtain ⟨r₂, hr₂, hlength₂, hsum₂⟩ := addOnto_ok r₁ d middle (by rwa [hlength₁])
  obtain ⟨r, hr, -, hsum⟩ := addOnto_ok r₂ (2 * d) ac (by rwa [hlength₂, hlength₁])
  refine ⟨r, ?_, ?_⟩
  · rw [overlay, hr₁]
    simp only [bind, Except.bind, hr₂, hr]
  · rw [hsum, hsum₂, hsum₁, horner_replicate_zero, zero_add, pow_zero, one_mul]

end Overlay

variable [DecidableEq R]

private theorem coefficient_mul (p q : Univariate R) (i : ℕ) :
    (p * q).coefficient i =
      ∑ x ∈ Finset.HasAntidiagonal.antidiagonal i, p.coefficient x.1 * q.coefficient x.2 := by
  rw [coefficient_eq_coeff, horner_mul, MvPolynomial.coeff_mul, Finsupp.antidiagonal_single,
    Finset.sum_map]
  simp only [coefficient_eq_coeff]
  rfl

private theorem size_mul_le (p q : Univariate R) : (p * q).size ≤ p.size + q.size - 1 := by
  apply size_le_iff.mpr
  intro i hi
  rw [coefficient_mul]
  apply Finset.sum_eq_zero
  rintro ⟨j, k⟩ hjk
  have hsum : j + k = i := Finset.HasAntidiagonal.mem_antidiagonal.mp hjk
  rcases Nat.lt_or_ge j p.size with hj | hj
  · rw [size_le_iff.mp le_rfl k (by omega), mul_zero]
  · rw [size_le_iff.mp le_rfl j hj, zero_mul]

section Halves

omit [DecidableEq R] in
private theorem horner_take_add_drop (as : List R) (d : ℕ) :
    horner (as.take d) + MvPolynomial.X 0 ^ d * horner (as.drop d) = horner as := by
  induction d generalizing as with
  | zero => simp
  | succ d ih =>
    cases as with
    | nil => simp
    | cons a as =>
      rw [List.take_succ_cons, List.drop_succ_cons, horner_cons, horner_cons, ← ih as]
      ring

private theorem horner_low_add_high (p : Univariate R) (d : ℕ) :
    horner (p.low d).coefficients + MvPolynomial.X 0 ^ d * horner (p.high d).coefficients =
      horner p.coefficients := by
  rw [low, high, horner_ofCoefficients, horner_ofCoefficients, horner_take_add_drop]

/-- What is left of the product of the sums are the products of unlike halves. -/
private theorem middle_eq (a₁ a₀ b₁ b₀ : Univariate R) :
    (a₁ + a₀) * (b₁ + b₀) - a₁ * b₁ - a₀ * b₀ = a₁ * b₀ + a₀ * b₁ := by
  apply horner_injective
  simp only [horner_sub, horner_add, horner_mul]
  ring

variable {p q : Univariate R} {d : ℕ} (hd : 2 * d ≤ max p.size q.size) (hpos : 0 < d)
include hd hpos

private theorem overlay_halves :
    ∃ r, overlay (2 * max p.size q.size - 1) d (p.low d * q.low d).coefficients
        ((p.high d + p.low d) * (q.high d + q.low d) - p.high d * q.high d -
          p.low d * q.low d).coefficients
        (p.high d * q.high d).coefficients = .ok r ∧
      ofCoefficients r = p * q := by
  rw [middle_eq]
  have hplow := size_low_le p d
  have hqlow := size_low_le q d
  have hphigh := size_high_le p d
  have hqhigh := size_high_le q d
  have hbd : (p.low d * q.low d).size ≤ 2 * max p.size q.size - 1 := by
    have hsize := size_mul_le (p.low d) (q.low d)
    omega
  have hmiddle : d + (p.high d * q.low d + p.low d * q.high d).size ≤
      2 * max p.size q.size - 1 := by
    have hsum := size_add_le (p.high d * q.low d) (p.low d * q.high d)
    have hleft := size_mul_le (p.high d) (q.low d)
    have hright := size_mul_le (p.low d) (q.high d)
    omega
  have hac : 2 * d + (p.high d * q.high d).size ≤ 2 * max p.size q.size - 1 := by
    have hsize := size_mul_le (p.high d) (q.high d)
    omega
  obtain ⟨r, hr, hsum⟩ := overlay_ok hbd hmiddle hac
  refine ⟨r, hr, horner_injective ?_⟩
  rw [horner_ofCoefficients, hsum, horner_add, horner_mul, horner_mul, horner_mul, horner_mul,
    horner_mul, ← horner_low_add_high p d, ← horner_low_add_high q d]
  ring

end Halves

private theorem mul_of_size_le_one {p q : Univariate R} (h : max p.size q.size ≤ 1) :
    ofCoefficients [p.coefficient 0 * q.coefficient 0] = p * q := by
  have hsize := size_mul_le p q
  apply ext_coefficient
  intro i
  rw [coefficient_ofCoefficients]
  cases i with
  | zero => rw [coefficient_mul, Finset.Nat.antidiagonal_zero, Finset.sum_singleton]; rfl
  | succ i => rw [size_le_iff.mp hsize (i + 1) (by omega)]; rfl

/-- Karatsuba's method finds the product. -/
theorem karatsuba_ok (p q : Univariate R) : p.karatsuba q = .ok (p * q) := by
  show p.karatsuba q = .ok (p.convolution q)
  fun_induction karatsuba p q with
  | case1 p q hp => rw [convolution, if_pos hp]
  | case2 p q hp hq => rw [convolution, if_neg hp, if_pos hq]
  | case3 p q hp hq h => exact congrArg Except.ok (mul_of_size_le_one h)
  | case4 p q hp hq h d ihac ihbd iht =>
    obtain ⟨r, hr, hproduct⟩ := overlay_halves (p := p) (q := q) (d := d) (by omega) (by omega)
    rw [ihac, ihbd, iht]
    change (do
      let r ← overlay _ d (p.low d * q.low d).coefficients
        ((p.high d + p.low d) * (q.high d + q.low d) - p.high d * q.high d -
          p.low d * q.low d).coefficients (p.high d * q.high d).coefficients
      return ofCoefficients r) = _
    rw [hr]
    exact congrArg Except.ok hproduct

/-- Both ways to multiply succeed with the same product, whatever the sizes of the factors are, and
also over rings with zero divisors. -/
theorem multiply_karatsuba_eq_convolution (f g : Univariate R) :
    ∃ h, multiply .karatsuba f g = .ok h ∧ multiply .convolution f g = .ok h ∧
      ∀ i, h.coefficient i =
        ∑ x ∈ Finset.HasAntidiagonal.antidiagonal i, f.coefficient x.1 * g.coefficient x.2 :=
  ⟨f * g, karatsuba_ok f g, rfl, coefficient_mul f g⟩

end PolyIdeal.Univariate
