import PolyIdeal.Proofs.Basis.Reduced
import PolyIdeal.Proofs.Basis.Scan

/-!
# The invariant of the completion

Wherever the loop over the pairs comes, the basis starts with the generators, every leading term is
the one that is kept with its polynomial, what has been appended is a member of the ideal that is
irreducible modulo all before it, and every pair that has been joined, also one that has been passed
over, has an s-polynomial that is a combination of the basis below the least common multiple of its
leading monomials.
-/

namespace PolyIdeal.Buchberger

open Monomial MonomialOrder PolyIdeal.Polynomial Reducer Completion

variable {R : Type} [CommRing R] [DecidableEq R] {n : ℕ} {order : Order}

/-- A member of the ideal of the generators that is irreducible modulo what is before it, so that
its leading monomial is a new one. -/
structure IsAppended (order : Order) (n : ℕ) (generators before : List (Polynomial R))
    (r : Polynomial R) : Prop where
  mem_ideal : r.denote n ∈ Ideal.span (denotations n generators)
  irreducible : ∀ m ∈ r.monomials, ∀ g ∈ before, ∃ lg,
    g.leadingMonomial order = .ok lg ∧ Monomial.divides lg m = false
  leading : ∃ lr, r.leadingMonomial order = .ok lr ∧ ∀ g ∈ before, ∃ lg,
    g.leadingMonomial order = .ok lg ∧ Monomial.divides lg lr = false

/-- The s-polynomial of `f` and `g` is a sum of multiples of the elements of a basis, all below the
least common multiple of the two leading monomials. -/
def JoinsBelow [Coefficient R] (order : Order) (n : ℕ) (basis : List (Polynomial R))
    (f g : Polynomial R) : Prop :=
  ∃ lf lg s, f.leadingMonomial order = .ok lf ∧ g.leadingMonomial order = .ok lg ∧
    sPolynomial f g order none = .ok s ∧
    ∃ q : Fin basis.length → MvPolynomial (Fin n) R,
      s.denote n = ∑ l, q l * (basis.get l).denote n ∧
      ∀ l, ∀ e ∈ (q l * (basis.get l).denote n).support,
        order.compare (ofExponents e) (Monomial.lcm lf lg) = .lt

/-- The invariant of the loop over the pairs. -/
structure LoopInvariant [Coefficient R] (order : Order) (n : ℕ) (generators : List (Polynomial R))
    (s : Scan (Element R)) : Prop where
  contains : generators <+: s.elements.map Element.polynomial
  /-- The leading term that is kept with an element is its leading term. -/
  leading : ∀ e ∈ s.elements, ∃ lm lc, e.polynomial.leadingTerm order = .ok (lm, lc) ∧
    e.divisor = .ok (.polynomial e.polynomial lm lc)
  appended : ∀ i r, generators.length ≤ i →
    (s.elements.map Element.polynomial)[i]? = some r →
      IsAppended order n generators ((s.elements.map Element.polynomial).take i) r
  joined : ∀ p ∈ s.joined, p.1 < p.2 ∧ ∃ f g,
    (s.elements.map Element.polynomial)[p.1]? = some f ∧
    (s.elements.map Element.polynomial)[p.2]? = some g ∧
    JoinsBelow order n (s.elements.map Element.polynomial) f g

variable (h : order.accepts n = true) {generators basis : List (Polynomial R)}
  {f g r : Polynomial R}

section Appended

variable [Coefficient R] [FieldCoefficient R]
  (hirr : Irreducible (order.monomialOrder n h) (denotations n basis) (r.denote n))
  (hbasis : Proper n basis) (hrn : r.nvars = n)
include hirr hbasis hrn

/-- Over a field every leading coefficient cancels, so that only the monomials count. -/
private theorem not_divides_of_irreducible {m : Monomial} (hm : m ∈ r.monomials) (hg : g ∈ basis) :
    ∃ lg, g.leadingMonomial order = .ok lg ∧ Monomial.divides lg m = false := by
  refine ⟨_, leadingMonomial_ok h (hbasis.nvars_eq g hg) (hbasis.denote_ne_zero g hg), ?_⟩
  obtain ⟨e, rfl⟩ := exists_ofExponents ((length_of_mem_monomials hm).trans hrn)
  rw [divides_ofExponents, decide_eq_false_iff_not]
  intro hle
  refine hirr e ((mem_monomials_iff hrn).mp hm) ⟨_, denote_mem_denotations hg, hle, ?_⟩
  exact (hbasis.isUnit_leadingCoeff _ _ (denote_mem_denotations hg)).dvd

private theorem isAppended_of_irreducible (hr0 : r.denote n ≠ 0)
    (hmem : r.denote n ∈ Ideal.span (denotations n generators)) :
    IsAppended order n generators basis r where
  mem_ideal := hmem
  irreducible m hm g hg := not_divides_of_irreducible h hirr hbasis hrn hm hg
  leading := by
    refine ⟨_, leadingMonomial_ok h hrn hr0, fun g hg => ?_⟩
    apply not_divides_of_irreducible h hirr hbasis hrn _ hg
    exact (mem_monomials_iff hrn).mpr ((order.monomialOrder n h).degree_mem_support hr0)

end Appended

private theorem joinsBelow_of_joins [Coefficient R] [FieldCoefficient R] (hbasis : Proper n basis)
    (hf : f ∈ basis) (hg : g ∈ basis)
    (hjoins : Joins (order.monomialOrder n h) (denotations n basis) (f.denote n) (g.denote n)) :
    JoinsBelow order n basis f g := by
  have hunit := hbasis.isUnit_leadingCoeff (order.monomialOrder n h)
  have hfn := hbasis.nvars_eq f hf
  have hgn := hbasis.nvars_eq g hg
  obtain ⟨s, c, hs, -, -, hsd⟩ := sPolynomial_ok h hfn hgn (hunit _ (denote_mem_denotations hf))
    (hunit _ (denote_mem_denotations hg))
  have hmem := Submodule.smul_mem _ c hjoins
  rw [← hsd, denotations_eq_range] at hmem
  obtain ⟨q, hsum, hq⟩ := exists_quotients hmem
  refine ⟨_, _, s, leadingMonomial_ok h hfn (hbasis.denote_ne_zero f hf),
    leadingMonomial_ok h hgn (hbasis.denote_ne_zero g hg), hs, q, hsum, fun l e he => ?_⟩
  rw [lcm_ofExponents, Order.compare_eq_cmp (h := h), cmp_eq_lt_iff]
  exact toSyn_mem_of_mem_boundedSpan (isLowerSet_Iio _) (hq l)
    (MvPolynomial.mem_support_iff.mp he)

/-- What the scan keeps: what the completion keeps of the pairs that have not been joined, and those
that have been are pairs of places in the list. -/
structure IsScan (config : Config) (generators : List (Polynomial R)) (s : Scan (Element R)) :
    Prop where
  completion : CompletionInvariant h config generators s.elements s.unjoined
  joined : ∀ p ∈ s.joined, p.1 < p.2 ∧ p.2 < s.elements.length

/-- One turn of the loop over the pairs. -/
def turn [Coefficient R] (order : Order) (config : Config) :
    Scan (Element R) → Except Failure (Option (Scan (Element R))) :=
  Scan.next fun basis _ f g => join order config basis f g

namespace IsScan

variable {config : Config} {s s' : Scan (Element R)}

private theorem start (hproper : Proper n generators) :
    IsScan h config generators ⟨generators.map (element order), []⟩ where
  completion := completionInvariant_start h hproper (by simp [Scan.unjoined])
  joined p hp := absurd hp List.not_mem_nil

section Turn

variable (hs : IsScan h config generators s)
include hs

private theorem joined_cons {p : ℕ × ℕ} {rest : List (ℕ × ℕ)} (hunjoined : s.unjoined = p :: rest)
    {length : ℕ} (hle : s.elements.length ≤ length) :
    ∀ q ∈ p :: s.joined, q.1 < q.2 ∧ q.2 < length := by
  have hplaces : ∀ q ∈ p :: s.joined, q.1 < q.2 ∧ q.2 < s.elements.length := by
    intro q hq
    rcases List.mem_cons.mp hq with rfl | hq
    · have hmem : q ∈ s.unjoined := hunjoined ▸ List.mem_cons_self
      exact mem_criticalPairs.mp (List.mem_of_mem_filter hmem)
    · exact hs.joined q hq
  intro q hq
  obtain ⟨hlt, hlt'⟩ := hplaces q hq
  exact ⟨hlt, hlt'.trans_le hle⟩

variable [Coefficient R] [FieldCoefficient R] (htol : config.tolerance = none)

include htol in
private theorem turn_ok : turn order config s = .ok none ∨
    ∃ s', turn order config s = .ok (some s') ∧ IsScan h config generators s' := by
  cases hunjoined : s.unjoined with
  | nil => exact .inl (Scan.next_nil hunjoined)
  | cons p rest =>
    obtain ⟨hlt, hlt'⟩ := Scan.lt_length_of_unjoined hunjoined
    have hf := List.getElem?_eq_getElem hlt
    have hg := List.getElem?_eq_getElem hlt'
    have hcompletion := hs.completion
    rw [hunjoined] at hcompletion
    rw [turn, Scan.next_cons hunjoined hf hg]
    rcases completionInvariant_step h htol hcompletion hf hg with
      ⟨e, -, hrefused⟩ | ⟨hnone, hkept⟩ | ⟨r, hsome, -, hkept⟩
    · exact absurd hrefused (not_refused e)
    · rw [hnone]
      refine .inr ⟨⟨s.elements ++ [], p :: s.joined⟩, rfl, ?_, ?_⟩
      · rw [List.append_nil, Scan.unjoined_cons hunjoined]
        exact hkept
      · exact hs.joined_cons h hunjoined (by simp)
    · rw [hsome]
      refine .inr ⟨⟨s.elements ++ [r], p :: s.joined⟩, rfl, ?_, ?_⟩
      · rw [Scan.unjoined_append hunjoined (fun q hq => (hs.joined q hq).2) r]
        exact hkept
      · exact hs.joined_cons h hunjoined (by simp)

/-- What the scan keeps is the invariant: no pair that has been joined is pending. -/
theorem loopInvariant : LoopInvariant order n generators s := by
  obtain ⟨basis, helements, hc⟩ := hs.completion
  have hbasis : s.elements.map Element.polynomial = basis := by
    rw [helements, map_polynomial_element]
  have hlength : s.elements.length = basis.length := by rw [← hbasis, List.length_map]
  exact
    { contains := hbasis ▸ hc.contains
      leading := by
        intro e he
        rw [helements] at he
        obtain ⟨g, hg, rfl⟩ := List.mem_map.mp he
        have hgn := hc.proper.nvars_eq g hg
        have hg0 := hc.proper.denote_ne_zero g hg
        exact ⟨_, _, leadingTerm_ok h hgn hg0, divisor_ok h hgn hg0⟩
      appended := by
        intro i r hi hr
        rw [hbasis] at hr ⊢
        have hrmem := List.mem_of_getElem? hr
        refine isAppended_of_irreducible h (hc.appended i r hi hr)
          (hc.proper.subset (List.take_subset i basis)) (hc.proper.nvars_eq r hrmem)
          (hc.proper.denote_ne_zero r hrmem) ?_
        rw [← hc.span_eq]
        exact Ideal.subset_span (denote_mem_denotations hrmem)
      joined := by
        intro p hp
        obtain ⟨hlt, hlt'⟩ := hs.joined p hp
        rw [hlength] at hlt'
        rw [hbasis]
        have hf := List.getElem?_eq_getElem (hlt.trans hlt')
        have hg := List.getElem?_eq_getElem hlt'
        have hsettled := (hc.pairs p.1 p.2 _ _ hlt hf hg).resolve_left fun hmem => by
          simp [Scan.unjoined, hp] at hmem
        exact ⟨hlt, _, _, hf, hg, joinsBelow_of_joins h hc.proper (List.mem_of_getElem? hf)
          (List.mem_of_getElem? hg)
          (hsettled.joins h (List.mem_of_getElem? hf) (List.mem_of_getElem? hg))⟩ }

end Turn

end IsScan

/-- Elements that stand for proper polynomials. -/
private def ProperElements (n : ℕ) (order : Order) (elements : List (Element R)) : Prop :=
  ∃ basis, elements = basis.map (element order) ∧ Proper n basis

section Run

variable [Coefficient R] [FieldCoefficient R] {config : Config} (htol : config.tolerance = none)
include h htol

private theorem properElements_join {elements : List (Element R)} {pair : ℕ × ℕ} {f g : Element R}
    (hproper : ProperElements n order elements)
    (hf : elements[pair.1]? = some f) (hg : elements[pair.2]? = some g) :
    (join order config elements f g).result = .ok none ∨
      ∃ r, (join order config elements f g).result = .ok (some r) ∧
        advances Element.monomial? elements pair r = true ∧
        ProperElements n order (elements ++ [r]) := by
  obtain ⟨basis, rfl, hproper⟩ := hproper
  have hstart : CompletionInvariant h config basis (basis.map (element order))
      (pair :: criticalPairs basis.length) :=
    completionInvariant_start h hproper (List.subset_cons_self _ _)
  rcases completionInvariant_step h htol hstart hf hg with
    ⟨e, -, hrefused⟩ | ⟨hnone, -⟩ | ⟨r, hsome, hadvances, basis', hbasis', hc⟩
  · exact absurd hrefused (not_refused e)
  · exact .inl hnone
  · exact .inr ⟨r, hsome, hadvances, basis', hbasis', hc.proper⟩

/-- The loop over the pairs of generators other than zero comes to an end with the completion, and
its invariant holds wherever it comes. -/
theorem buchberger_loopInvariant (hn : ∀ g ∈ generators, g.nvars = n)
    (hzero : ∀ g ∈ generators, g.isZero = false) :
    ∃ completed : Scan (Element R),
      Loop (turn order config) ⟨generators.map (element order), []⟩ (.ok completed) ∧
      (buchberger generators order config).result =
        .ok (completed.elements.map Element.polynomial) ∧
      LoopInvariant order n generators completed ∧
      ∀ s, Reaches (turn order config) ⟨generators.map (element order), []⟩ s →
        LoopInvariant order n generators s := by
  have hproper := Proper.of_isZero hn hzero
  have hinvariant (s : Scan (Element R))
      (hs : Reaches (turn order config) ⟨generators.map (element order), []⟩ s) :
      LoopInvariant order n generators s := by
    have hscan : IsScan h config generators s := by
      refine hs.invariant (fun s s' hs hturn => ?_) (IsScan.start h hproper)
      rcases hs.turn_ok h htol with hnone | ⟨s'', hsome, hs''⟩
      · rw [hturn] at hnone
        cases hnone
      · rw [hturn] at hsome
        cases hsome
        exact hs''
    exact hscan.loopInvariant h
  have hstart : ProperElements n order (generators.map (element order)) :=
    ⟨generators, rfl, hproper⟩
  obtain ⟨completed, joined, hloop, hcomplete, -⟩ :=
    loop_complete_ends (fun _ _ _ _ => properElements_join h htol) hstart
  rw [List.length_map] at hcomplete
  refine ⟨⟨completed, joined⟩, hloop, ?_, hinvariant _ (hloop.reaches rfl), hinvariant⟩
  rw [result_buchberger h htol hproper, Traced.result_bind hcomplete]
  rfl

end Run

theorem buchberger_loopInvariant_hyperbolaAndLine :
    ∃ completed : Scan (Element (Residue 3)),
      Loop (turn .degRevlex { productCriterion := true })
        ⟨hyperbolaAndLine.map (element .degRevlex), []⟩ (.ok completed) ∧
      (buchberger hyperbolaAndLine .degRevlex { productCriterion := true }).result =
        .ok (completed.elements.map Element.polynomial) ∧
      LoopInvariant .degRevlex 2 hyperbolaAndLine completed ∧
      ∀ s, Reaches (turn .degRevlex { productCriterion := true })
          ⟨hyperbolaAndLine.map (element .degRevlex), []⟩ s →
        LoopInvariant .degRevlex 2 hyperbolaAndLine s := by
  apply buchberger_loopInvariant rfl rfl nvars_hyperbolaAndLine
  intro g hg
  rcases List.mem_pair.mp hg with rfl | rfl <;> rfl

end PolyIdeal.Buchberger
