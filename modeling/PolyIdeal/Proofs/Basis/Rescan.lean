import PolyIdeal.Proofs.Basis.Reduced
import PolyIdeal.Proofs.Reduction.FirstDivisor

/-!
# Scanning from the first pair

The plain form of the completion keeps no record of pairs: after every remainder that it appends it
reduces all pairs again, from the first one on. Over a field this gives the same list. A pair that
has vanished vanishes modulo every longer list as well, since its s-polynomial stays a combination
of multiples of first divisors.
-/

namespace PolyIdeal

section Plain

variable {R : Type} [CommRing R] [DecidableEq R] [Coefficient R] (order : Order) (config : Config)

/-- The remainder of the s-polynomial of two polynomials modulo a list, unless it is zero or passed
over. -/
def pairRemainder (basis : List (Polynomial R)) (f g : Polynomial R) :
    Except Failure (Option (Polynomial R)) := do
  let lf ← f.leadingMonomial order
  let lg ← g.leadingMonomial order
  if config.productCriterion && Monomial.coprime lf lg then return none
  let s ← sPolynomial f g order config.tolerance
  let r ← (reduce s basis order config.tolerance).result
  let r ← r.chop config.tolerance
  return if r.isZero then none else some r

def firstRemainder (basis : List (Polynomial R)) :
    List (ℕ × ℕ) → Except Failure (Option (Polynomial R))
  | [] => .ok none
  | p :: pairs =>
    match basis[p.1]?, basis[p.2]? with
    | some f, some g =>
      match pairRemainder order config basis f g with
      | .error e => .error e
      | .ok none => firstRemainder basis pairs
      | .ok (some r) => .ok (some r)
    | _, _ => firstRemainder basis pairs

/-- A run of the plain algorithm, which appends the first remainder of all pairs and starts the scan
again until there is none. -/
inductive Rescans : List (Polynomial R) → Except Failure (List (Polynomial R)) → Prop
  | fails {basis : List (Polynomial R)} {e : Failure}
      (hscan : firstRemainder order config basis (criticalPairs basis.length) = .error e) :
    Rescans basis (.error e)
  | ends {basis : List (Polynomial R)}
      (hscan : firstRemainder order config basis (criticalPairs basis.length) = .ok none) :
    Rescans basis (.ok basis)
  | appends {basis : List (Polynomial R)} {r : Polynomial R}
      {outcome : Except Failure (List (Polynomial R))}
      (hscan : firstRemainder order config basis (criticalPairs basis.length) = .ok (some r))
      (hrest : Rescans (basis ++ [r]) outcome) : Rescans basis outcome

variable {order config}

theorem Rescans.unique {basis : List (Polynomial R)}
    {outcome outcome' : Except Failure (List (Polynomial R))}
    (h : Rescans order config basis outcome) (h' : Rescans order config basis outcome') :
    outcome = outcome' := by
  induction h with
  | fails hscan =>
    cases h' with
    | fails hscan' => exact congrArg Except.error (Except.error.inj (hscan.symm.trans hscan'))
    | ends hscan' => exact absurd (hscan.symm.trans hscan') nofun
    | appends hscan' _ => exact absurd (hscan.symm.trans hscan') nofun
  | ends hscan =>
    cases h' with
    | fails hscan' => exact absurd (hscan.symm.trans hscan') nofun
    | ends hscan' => rfl
    | appends hscan' _ => exact absurd (hscan.symm.trans hscan') nofun
  | appends hscan _ ih =>
    cases h' with
    | fails hscan' => exact absurd (hscan.symm.trans hscan') nofun
    | ends hscan' => exact absurd (hscan.symm.trans hscan') nofun
    | appends hscan' hrest' =>
      obtain rfl := Option.some.inj (Except.ok.inj (hscan.symm.trans hscan'))
      exact ih hrest'

end Plain

namespace Buchberger

open Monomial MonomialOrder PolyIdeal.Polynomial Reducer Completion

variable {R : Type} [CommRing R] [DecidableEq R] [Coefficient R] {order : Order}
  {config : Config} {basis : List (Polynomial R)}

section Scan

private def Vanishes (order : Order) (config : Config) (basis : List (Polynomial R))
    (p : ℕ × ℕ) : Prop :=
  ∀ f g, basis[p.1]? = some f → basis[p.2]? = some g →
    pairRemainder order config basis f g = .ok none

private theorem firstRemainder_append {before : List (ℕ × ℕ)}
    (hbefore : ∀ p ∈ before, Vanishes order config basis p) (pairs : List (ℕ × ℕ)) :
    firstRemainder order config basis (before ++ pairs) =
      firstRemainder order config basis pairs := by
  induction before with
  | nil => rfl
  | cons p before ih =>
    obtain ⟨hp, hrest⟩ := List.forall_mem_cons.mp hbefore
    rw [List.cons_append, firstRemainder]
    cases hf : basis[p.1]? with
    | none => exact ih hrest
    | some f =>
      cases hg : basis[p.2]? with
      | none => exact ih hrest
      | some g =>
        simp only [hp f g hf hg]
        exact ih hrest

private theorem rescans_of_vanishes
    (h : ∀ p ∈ criticalPairs basis.length, Vanishes order config basis p) :
    Rescans order config basis (.ok basis) := by
  have hscan := firstRemainder_append h []
  rw [List.append_nil] at hscan
  exact .ends hscan

private theorem rescans_of_remainder {p : ℕ × ℕ} (hp : p.1 < p.2) {f g r : Polynomial R}
    (hf : basis[p.1]? = some f) (hg : basis[p.2]? = some g)
    (hbefore : ∀ q ∈ criticalPairs basis.length, pairBefore p q = false →
      Vanishes order config basis q)
    (hr : pairRemainder order config basis f g = .ok (some r))
    {outcome : Except Failure (List (Polynomial R))}
    (hrest : Rescans order config (basis ++ [r]) outcome) :
    Rescans order config basis outcome := by
  have hmem : p ∈ criticalPairs basis.length :=
    mem_criticalPairs.mpr ⟨hp, (List.getElem?_eq_some_iff.mp hg).1⟩
  obtain ⟨before, after, hsplit⟩ := List.append_of_mem hmem
  have hpairwise := pairwise_criticalPairs basis.length
  rw [hsplit, List.pairwise_append] at hpairwise
  have hscan : firstRemainder order config basis (criticalPairs basis.length) = .ok (some r) := by
    rw [hsplit, firstRemainder_append]
    · rw [firstRemainder]
      simp only [hf, hg, hr]
    · intro q hq
      refine hbefore q ?_ (hpairwise.2.2 q hq p List.mem_cons_self)
      rw [hsplit]
      exact List.mem_append_left _ hq
  exact .appends hscan hrest

end Scan

variable {n : ℕ}

section Run

variable [FieldCoefficient R] (h : order.accepts n = true) (htol : config.tolerance = none)
  {p q : Polynomial R}
include h htol

/-- A pair is passed over modulo every list, or it has an s-polynomial, of which modulo every list
the normal form by first divisors is left. -/
private theorem pairRemainder_spec (hp : p.nvars = n) (hq : q.nvars = n) (hp0 : p.denote n ≠ 0)
    (hq0 : q.denote n ≠ 0) :
    (∀ basis, pairRemainder order config basis p q = .ok none) ∨
      ∃ s : Polynomial R, s.nvars = n ∧ ∀ basis, Proper n basis → ∃ r : Polynomial R,
        pairRemainder order config basis p q = .ok (if r.isZero then none else some r) ∧
        r.nvars = n ∧
        s.denote n - r.denote n ∈
          firstSpan (order.monomialOrder n h) (basis.map (denote n)) ∧
        ∀ e ∈ (r.denote n).support, ∀ g ∈ basis.map (denote n),
          ¬ (order.monomialOrder n h).degree g ≤ e := by
  have hpu : IsUnit ((order.monomialOrder n h).leadingCoeff (p.denote n)) :=
    FieldCoefficient.isUnit_of_ne_zero ((order.monomialOrder n h).leadingCoeff_ne_zero_iff.mpr hp0)
  have hqu : IsUnit ((order.monomialOrder n h).leadingCoeff (q.denote n)) :=
    FieldCoefficient.isUnit_of_ne_zero ((order.monomialOrder n h).leadingCoeff_ne_zero_iff.mpr hq0)
  obtain ⟨s, c, hs, hsn, -, -⟩ := sPolynomial_ok h hp hq hpu hqu
  simp only [pairRemainder, leadingMonomial_ok h hp hp0, leadingMonomial_ok h hq hq0, bind,
    Except.bind, htol, hs]
  split
  · exact .inl fun basis => rfl
  · refine .inr ⟨s, hsn, fun basis hbasis => ?_⟩
    obtain ⟨reducer, hok, hr⟩ := ofBasis_ok h hbasis
    obtain ⟨r, hresult, hrn, hmem, hirr⟩ := normalForm_first h hr hsn
    refine ⟨r, ?_, hrn, hmem, hirr⟩
    simp only [reduce, hok, hresult, chop_none]
    rfl

/-- A pair that has left no remainder leaves none when another element is appended, and one that has
left a remainder leaves none when that is. -/
private theorem pairRemainder_append {r : Polynomial R} (hbasis : Proper n (basis ++ [r]))
    (hp : p ∈ basis) (hq : q ∈ basis)
    (hfound : pairRemainder order config basis p q = .ok none ∨
      pairRemainder order config basis p q = .ok (some r)) :
    pairRemainder order config (basis ++ [r]) p q = .ok none := by
  have hbasis' : Proper n basis := hbasis.subset (List.subset_append_left _ _)
  rcases pairRemainder_spec h htol (hbasis'.nvars_eq p hp) (hbasis'.nvars_eq q hq)
    (hbasis'.denote_ne_zero p hp) (hbasis'.denote_ne_zero q hq) with hnone | ⟨s, -, hspec⟩
  · exact hnone _
  · obtain ⟨r₁, hr₁, hn₁, hmem₁, hirr₁⟩ := hspec basis hbasis'
    obtain ⟨r₂, hr₂, hn₂, hmem₂, hirr₂⟩ := hspec (basis ++ [r]) hbasis
    rw [List.map_append, List.map_singleton] at hmem₂ hirr₂
    have hleft : r₁.denote n ∈ firstSpan (order.monomialOrder n h)
        (basis.map (denote n) ++ [r.denote n]) := by
      cases hzero : r₁.isZero with
      | true =>
        rw [(isZero_iff hn₁).mp hzero]
        exact Submodule.zero_mem _
      | false =>
        -- What has been left is what is appended, and it has no divisor before it.
        obtain rfl : r₁ = r := by simpa [hr₁, hzero] using hfound
        apply mem_firstSpan_append
        rw [firstDivisor?_none_iff]
        exact hirr₁ _ ((order.monomialOrder n h).degree_mem_support
          ((isZero_eq_false_iff hn₁).mp hzero))
    have hs : s.denote n - 0 ∈ firstSpan (order.monomialOrder n h)
        (basis.map (denote n) ++ [r.denote n]) := by
      rw [sub_zero, ← sub_add_cancel (s.denote n) (r₁.denote n)]
      exact Submodule.add_mem _ (firstSpan_le_append _ _ hmem₁) hleft
    have hzero : r₂.denote n = 0 := by
      refine eq_of_sub_mem_firstSpan ?_ hmem₂ hs hirr₂ (by simp)
      rintro G hG
      rw [← List.map_singleton, ← List.map_append] at hG
      obtain ⟨g, hg, rfl⟩ := List.mem_map.mp hG
      exact hbasis.denote_ne_zero g hg
    rw [hr₂, (isZero_iff hn₂).mpr hzero]
    rfl

omit [FieldCoefficient R] in
private theorem result_join (hbasis : Proper n basis) (hp : p ∈ basis) (hq : q ∈ basis) :
    (join order config (basis.map (element order)) (element order p)
      (element order q)).result =
        (pairRemainder order config basis p q).map (Option.map (element order)) := by
  have hp' := divisor_ok h (hbasis.nvars_eq p hp) (hbasis.denote_ne_zero p hp)
  have hq' := divisor_ok h (hbasis.nvars_eq q hq) (hbasis.denote_ne_zero q hq)
  obtain ⟨reducer, hok, -⟩ := ofBasis_ok h hbasis
  have hok' : ofElements order none (basis.map (element order)) = .ok reducer := hok
  have hcoprime : coprime (element order p) (element order q) = Monomial.coprime
      (ofExponents ((order.monomialOrder n h).degree (p.denote n)))
      (ofExponents ((order.monomialOrder n h).degree (q.denote n))) := by
    simp only [coprime, element, hp', hq', divisorOf, Divisor.leadingMonomial]
  have hpair : pairRemainder order config basis p q = (if config.productCriterion &&
      coprime (element order p) (element order q) then .ok none else do
        let s ← sPolynomial p q order none
        let r ← (reducer.normalForm s).result
        .ok (if r.isZero then none else some r)) := by
    simp only [pairRemainder, leadingMonomial_ok h (hbasis.nvars_eq p hp)
      (hbasis.denote_ne_zero p hp), leadingMonomial_ok h (hbasis.nvars_eq q hq)
      (hbasis.denote_ne_zero q hq), htol, reduce, hok, chop_none, hcoprime]
    rfl
  rw [join, hpair, htol]
  split
  · rfl
  · rw [Traced.result_lift_bind hok']
    simp only [element]
    cases hs : sPolynomial p q order none with
    | error e => exact Traced.result_lift_bind_error rfl _
    | ok s =>
      rw [Traced.result_lift_bind rfl]
      cases hr : (reducer.normalForm s).result with
      | error e =>
        rw [Traced.result_bind_error hr]
        simp only [bind, Except.bind, hr]
        rfl
      | ok r =>
        rw [Traced.result_bind hr, Traced.result_lift_bind (chop_none r)]
        simp only [bind, Except.bind, hr]
        split <;> rfl

section Invariant

variable {generators : List (Polynomial R)} {pair : ℕ × ℕ} {rest : List (ℕ × ℕ)}

/-- What the completion keeps with regard to the plain algorithm: pending pairs come in order, all
others leave no remainder, and the plain algorithm has come as far. -/
private structure ScanInvariant (order : Order) (config : Config)
    (generators basis : List (Polynomial R)) (pending : List (ℕ × ℕ)) : Prop where
  ordered : pending.Pairwise fun p q => pairBefore p q = true
  ascending : ∀ p ∈ pending, p.1 < p.2
  vanishes : PairsSettled
    (fun f g => pairRemainder order config basis f g = .ok none) basis pending
  rescans : ∀ outcome, Rescans order config basis outcome →
    Rescans order config generators outcome

namespace ScanInvariant

omit h htol [FieldCoefficient R] in
private theorem start : ScanInvariant order config generators generators
    (criticalPairs generators.length) where
  ordered := ordered_criticalPairs _
  ascending _ hp := (mem_criticalPairs.mp hp).1
  vanishes := pairsSettled_criticalPairs
  rescans _ hrun := hrun

omit h htol [FieldCoefficient R] in
private theorem skip (hinv : ScanInvariant order config generators basis (pair :: rest))
    (hpair : Vanishes order config basis pair) :
    ScanInvariant order config generators basis rest where
  ordered := (List.pairwise_cons.mp hinv.ordered).2
  ascending := (List.forall_mem_cons.mp hinv.ascending).2
  vanishes := hinv.vanishes.skip hpair
  rescans := hinv.rescans

omit h htol [FieldCoefficient R] in
private theorem vanishes_of_before
    (hinv : ScanInvariant order config generators basis (pair :: rest)) {q : ℕ × ℕ}
    (hq : q ∈ criticalPairs basis.length) (hbefore : pairBefore pair q = false) :
    Vanishes order config basis q := by
  intro f g hf hg
  refine (hinv.vanishes q.1 q.2 f g (mem_criticalPairs.mp hq).1 hf hg).resolve_left fun hmem => ?_
  rcases List.mem_cons.mp hmem with rfl | hmem
  · simp [pairBefore] at hbefore
  · rw [(List.pairwise_cons.mp hinv.ordered).1 _ hmem] at hbefore
    cases hbefore

/-- What the first pending pair leaves is what the plain algorithm appends. -/
private theorem append (hinv : ScanInvariant order config generators basis (pair :: rest))
    {r : Polynomial R} (hbasis : Proper n (basis ++ [r])) (hp : basis[pair.1]? = some p)
    (hq : basis[pair.2]? = some q) (hr : pairRemainder order config basis p q = .ok (some r)) :
    ScanInvariant order config generators (basis ++ [r])
      (rest.merge (pairsWith basis.length) pairBefore) where
  ordered := pairwise_merge_pairsWith (List.pairwise_cons.mp hinv.ordered).2 _
  ascending p hp := by
    rcases List.mem_merge.mp hp with hp | hp
    · exact (List.forall_mem_cons.mp hinv.ascending).2 p hp
    · obtain ⟨i, hi, rfl⟩ := List.mem_map.mp hp
      exact List.mem_range.mp hi
  vanishes := by
    have hkept : PairsSettled
        (fun f g => pairRemainder order config (basis ++ [r]) f g = .ok none) basis
        (pair :: rest) :=
      hinv.vanishes.imp fun f hf g hg hnone =>
        pairRemainder_append h htol hbasis hf hg (.inl hnone)
    refine (hkept.skip fun f g hf hg => ?_).append r
    obtain rfl := Option.some.inj (hp.symm.trans hf)
    obtain rfl := Option.some.inj (hq.symm.trans hg)
    exact pairRemainder_append h htol hbasis (List.mem_of_getElem? hp) (List.mem_of_getElem? hq)
      (.inr hr)
  rescans outcome hrun := by
    apply hinv.rescans
    exact rescans_of_remainder (hinv.ascending pair List.mem_cons_self) hp hq
      (fun q hq hbefore => hinv.vanishes_of_before hq hbefore) hr hrun

omit h htol [FieldCoefficient R] in
private theorem rescans_end (hinv : ScanInvariant order config generators basis []) :
    Rescans order config generators (.ok basis) := by
  apply hinv.rescans
  refine rescans_of_vanishes fun p hp f g hf hg => ?_
  exact (hinv.vanishes p.1 p.2 f g (mem_criticalPairs.mp hp).1 hf hg).resolve_left
    List.not_mem_nil

end ScanInvariant

private def KeepsScan (n : ℕ) (order : Order) (config : Config) (generators : List (Polynomial R))
    (elements : List (Element R)) (pending : List (ℕ × ℕ)) : Prop :=
  ∃ basis, elements = basis.map (element order) ∧ Proper n basis ∧
    ScanInvariant order config generators basis pending

omit h htol [FieldCoefficient R] in
private theorem keepsScan_skip {elements : List (Element R)}
    (hinv : KeepsScan n order config generators elements (pair :: rest))
    (hnone : elements[pair.1]? = none ∨ elements[pair.2]? = none) :
    KeepsScan n order config generators elements rest := by
  obtain ⟨basis, rfl, hbasis, hscan⟩ := hinv
  refine ⟨basis, rfl, hbasis, hscan.skip fun f g hf hg => ?_⟩
  simp [hf, hg] at hnone

/-- Joining the first pending pair keeps the invariant, whatever it gives. -/
private theorem keepsScan_step {elements : List (Element R)} {f g : Element R}
    (hinv : KeepsScan n order config generators elements (pair :: rest))
    (hf : elements[pair.1]? = some f) (hg : elements[pair.2]? = some g) :
    (∃ e, (join order config elements f g).result = .error e ∧ Refused R e) ∨
      ((join order config elements f g).result = .ok none ∧
        KeepsScan n order config generators elements rest) ∨
      ∃ r, (join order config elements f g).result = .ok (some r) ∧
        advances Element.monomial? elements pair r = true ∧
        KeepsScan n order config generators (elements ++ [r])
          (rest.merge (pairsWith elements.length) pairBefore) := by
  obtain ⟨basis, rfl, hbasis, hscan⟩ := hinv
  rw [List.getElem?_map, Option.map_eq_some_iff] at hf hg
  obtain ⟨p, hp, rfl⟩ := hf
  obtain ⟨q, hq, rfl⟩ := hg
  have hpmem := List.mem_of_getElem? hp
  have hqmem := List.mem_of_getElem? hq
  have hjoin := join_spec h hbasis hpmem hqmem htol
  have hresult := result_join h htol hbasis hpmem hqmem
  have hskip (hnone : pairRemainder order config basis p q = .ok none) :
      ScanInvariant order config generators basis rest := by
    refine hscan.skip fun f g hf hg => ?_
    obtain rfl := Option.some.inj (hp.symm.trans hf)
    obtain rfl := Option.some.inj (hq.symm.trans hg)
    exact hnone
  rw [hresult] at hjoin ⊢
  cases hpair : pairRemainder order config basis p q with
  | error e =>
    rw [hpair] at hjoin
    cases hjoin with
    | refused hunit => exact .inl ⟨_, rfl, refused_of_not_invertible h hbasis hpmem hqmem hunit _⟩
  | ok found =>
    rw [hpair] at hjoin
    cases found with
    | none => exact .inr (.inl ⟨rfl, basis, rfl, hbasis, hskip hpair⟩)
    | some r =>
      cases hjoin with
      | remainder hunit hrn hr0 hmem hirr hjoins =>
        have hbasis' := hbasis.append (Proper.singleton hrn hr0)
        refine .inr (.inr ⟨element order r, rfl,
          advances_of_irreducible h hbasis hp hq hunit hrn hr0 hirr, basis ++ [r], by simp, hbasis',
          ?_⟩)
        rw [List.length_map]
        exact hscan.append h htol hbasis' hp hq hpair

end Invariant

end Run

/-- Over a field the completion gives the list that the plain algorithm ends with. -/
theorem buchberger_iff_rescans [FieldCoefficient R] {generators : List (Polynomial R)}
    (h : order.accepts n = true) (hn : ∀ g ∈ generators, g.nvars = n)
    (hzero : ∀ g ∈ generators, g.isZero = false) (htol : config.tolerance = none) :
    ∃ completed, (buchberger generators order config).result = .ok completed ∧
      ∀ outcome, Rescans order config generators outcome ↔ outcome = .ok completed := by
  have hproper := Proper.of_isZero hn hzero
  have hrun := complete_invariant (fun _ _ _ => keepsScan_skip)
    (fun _ _ _ _ _ => keepsScan_step h htol) ⟨generators, rfl, hproper, .start⟩
  rw [result_buchberger h htol hproper]
  rcases hrun with ⟨e, -, hrefused⟩ | ⟨_, hcomplete, basis, rfl, -, hscan⟩
  · exact absurd hrefused (not_refused e)
  · refine ⟨basis, ?_, fun outcome => ⟨fun hrun => hrun.unique hscan.rescans_end, ?_⟩⟩
    · rw [Traced.result_bind hcomplete, map_polynomial_element]
      rfl
    · rintro rfl
      exact hscan.rescans_end

theorem buchberger_iff_rescans_hyperbolaAndLine :
    ∃ completed, (buchberger hyperbolaAndLine .lex { productCriterion := true }).result =
        .ok completed ∧
      ∀ outcome, Rescans .lex { productCriterion := true } hyperbolaAndLine outcome ↔
        outcome = .ok completed := by
  refine buchberger_iff_rescans rfl nvars_hyperbolaAndLine ?_ rfl
  intro g hg
  rcases List.mem_pair.mp hg with rfl | rfl <;> rfl

end Buchberger

end PolyIdeal
