import PolyIdeal.Proofs.Polynomial.Alike
import PolyIdeal.Proofs.Reduction.NormalForm

/-!
# Reduction of polynomials that are kept in different ways

Reducers with alike divisors look at the monomials of alike polynomials in the same turn, cancel them
by the same multiples and refuse what they refuse in the same words. So alike polynomials have alike
normal forms, with any order and any tolerance.
-/

namespace PolyIdeal

open Monomial PolyIdeal.Polynomial

namespace Reducer

variable {R : Type} [CommRing R] [DecidableEq R] {n : ℕ}

/-- Alike polynomials with the same leading term. -/
inductive AlikeDivisors (n : ℕ) : Divisor R → Divisor R → Prop
  | polynomial {g g' : Polynomial R} (h : Alike n g g') {lm : Monomial} (hlm : lm.length = n)
      (lc : R) : AlikeDivisors n (.polynomial g lm lc) (.polynomial g' lm lc)

structure AlikeElements (n : ℕ) (e e' : Element R) : Prop where
  polynomial : Alike n e.polynomial e'.polynomial
  divisor : SameOutcome (AlikeDivisors n) e.divisor e'.divisor

structure AlikeReducers (n : ℕ) (r r' : Reducer R) : Prop where
  order_eq : r.order = r'.order
  tolerance_eq : r.tolerance = r'.tolerance
  nvars_eq : r.nvars = r'.nvars
  divisors : List.Forall₂ (AlikeDivisors n) r.divisors r'.divisors

section Elements

variable {g g' : Polynomial R} {e e' : Element R} {basis basis' : List (Element R)}

private theorem divisor_alike (h : Alike n g g') (order : Order) :
    SameOutcome (AlikeDivisors n) (divisor order g) (divisor order g') := by
  rw [divisor, divisor, h.isZero_eq, h.leadingTerm_eq]
  split
  · exact .failure _
  · cases ht : g'.leadingTerm order with
    | error e => exact .failure e
    | ok t =>
      have hlm := (length_of_mem_monomials (mem_monomials_of_leadingTerm ht)).trans h.nvars_eq'
      exact .success (.polynomial h hlm t.2)

theorem element_alike (h : Alike n g g') (order : Order) :
    AlikeElements n (element order g) (element order g') :=
  ⟨h, divisor_alike h order⟩

theorem AlikeElements.monomial?_eq [Coefficient R] (h : AlikeElements n e e') :
    e.monomial? = e'.monomial? := by
  obtain ⟨-, hd⟩ := h
  rw [Element.monomial?, Element.monomial?]
  generalize e.divisor = d at hd ⊢
  generalize e'.divisor = d' at hd ⊢
  cases hd with
  | failure e => rfl
  | success hd =>
    cases hd
    rfl

theorem ofElements_alike (h : List.Forall₂ (AlikeElements n) basis basis') (order : Order)
    (tolerance : Option Tolerance) : SameOutcome (AlikeReducers n)
      (ofElements order tolerance basis) (ofElements order tolerance basis') := by
  have hnvars : basis.map (fun e => e.polynomial.nvars) =
      basis'.map fun e => e.polynomial.nvars :=
    map_eq_of_forall₂ h fun _ _ h => h.polynomial.nvars_eq_nvars
  rw [ofElements, ofElements, hnvars]
  refine (SameOutcome.mapM h fun _ _ h => h.divisor).bind fun ds ds' _ hds => ?_
  exact SameOutcome.bind_same fun _ _ => .success ⟨rfl, rfl, rfl, hds⟩

theorem ofBasis_alike {basis basis' : List (Polynomial R)}
    (h : List.Forall₂ (Alike n) basis basis') (order : Order) (tolerance : Option Tolerance) :
    SameOutcome (AlikeReducers n) (ofBasis order tolerance basis)
      (ofBasis order tolerance basis') := by
  apply ofElements_alike
  rw [List.forall₂_map_left_iff, List.forall₂_map_right_iff]
  exact h.imp fun _ _ h => element_alike h order

end Elements

section Run

variable [Coefficient R] {f f' g g' p p' : Polynomial R} {r r' : Reducer R}

private theorem cancelled_alike (tolerance : Option Tolerance) (hf : Alike n f f')
    (hg : Alike n g g') (hp : Alike n p p') (m : Monomial) :
    SameOutcome (Alike n) (cancelled tolerance f g p m) (cancelled tolerance f' g' p' m) := by
  simp only [cancelled, hp.coefficient_eq, hf.text_eq, hg.text_eq]
  split
  · exact .success hp
  · cases tolerance with
    | none => exact .failure _
    | some t =>
      refine SameOutcome.bind_same fun small _ => ?_
      cases small with
      | false => exact .failure _
      | true => exact .success (hp.filterTerms _)

private theorem cancel?_alike (tolerance : Option Tolerance) (hf : Alike n f f') {m : Monomial}
    (hm : m.length = n) (c : R) {ds ds' : List (Divisor R)}
    (hds : List.Forall₂ (AlikeDivisors n) ds ds') :
    SameOutcome (Option.Rel fun a b => Alike n a.2 b.2) (cancel? tolerance f m c ds)
      (cancel? tolerance f' m c ds') := by
  induction hds with
  | nil => exact .success .none
  | cons hd _ ih =>
    obtain ⟨hg, hlm, lc⟩ := hd
    rw [cancel?, cancel?]
    simp only [Divisor.leadingMonomial]
    cases hshift : div? m _ with
    | none => exact ih
    | some shift =>
      cases Coefficient.exquo? c lc with
      | none => exact ih
      | some q =>
        refine (hg.mulTerm ((div?_eq_some_iff hm hlm).mp hshift).1 q).bind fun _ _ _ hmul => ?_
        refine (hf.sub hmul).bind fun _ _ _ hsub => ?_
        refine (cancelled_alike tolerance hf hg hsub m).bind fun _ _ _ hp => ?_
        exact .success (.some hp)

/-- Cancellations of one monomial with alike outcomes. -/
private def AlikeCancellations (n : ℕ) {ms ms' : List Monomial} (s : Cancellation R ms)
    (s' : Cancellation R ms') : Prop :=
  s.monomial = s'.monomial ∧ Alike n s.outcome s'.outcome

variable (hr : AlikeReducers n r r')
include hr

private theorem cancelFirst?_alike (hf : Alike n f f') {ms : List Monomial}
    (hms : ∀ m ∈ ms, m.length = n) :
    SameOutcome (Option.Rel (AlikeCancellations n)) (r.cancelFirst? f ms)
      (r'.cancelFirst? f' ms) := by
  induction ms with
  | nil => exact .success .none
  | cons m ms ih =>
    have hcancel := cancel?_alike r.tolerance hf (hms m List.mem_cons_self) (f.coefficient m)
      hr.divisors
    have htail := ih fun m hm => hms m (List.mem_cons_of_mem _ hm)
    rw [cancelFirst?, cancelFirst?, ← hr.tolerance_eq, ← hf.coefficient_eq]
    rcases hcancel.cases_option with ⟨e, he, he'⟩ | ⟨hnone, hnone'⟩ | ⟨a, b, hsome, hsome', hab⟩
    · rw [he, he']
      exact .failure e
    · rw [hnone, hnone']
      rcases htail.cases_option with ⟨e, he, he'⟩ | ⟨hnone, hnone'⟩ | ⟨s, s', hs, hs', hss⟩
      · rw [he, he']
        exact .failure e
      · rw [hnone, hnone']
        exact .success .none
      · rw [hs, hs']
        exact .success (.some hss)
    · rw [hsome, hsome']
      exact .success (.some ⟨rfl, hab⟩)

omit [Coefficient R] in
private theorem check_alike (hf : Alike n f f') : r.check f = r'.check f' := by
  rw [check, check, hr.nvars_eq, hr.order_eq, hf.nvars_eq_nvars, hf.monomials_eq]

private theorem normalFormBelow_alike (bound : Monomial) (hf : Alike n f f') :
    SameOutcome (Alike n) (r.normalFormBelow bound f).result
      (r'.normalFormBelow bound f').result := by
  induction bound using r.order.below_wf.induction generalizing f f' with
  | _ bound ih =>
    have hlen : ∀ m ∈ (r.order.descending f.monomials).filter (r.order.Below · bound),
        m.length = n :=
      fun m hm => length_of_mem_descending hf.nvars_eq (List.mem_of_mem_filter hm)
    have hms' : (r'.order.descending f'.monomials).filter (r'.order.Below · bound) =
        (r.order.descending f.monomials).filter (r.order.Below · bound) := by
      rw [hr.order_eq, hf.monomials_eq]
    rcases (cancelFirst?_alike hr hf hlen).cases_option with
      ⟨e, he, he'⟩ | ⟨hnone, hnone'⟩ | ⟨s, s', hs, hs', hmonomial, hss⟩
    · rw [result_normalFormBelow_error rfl he, result_normalFormBelow_error hms' he']
      exact .failure e
    · rw [result_normalFormBelow_none rfl hnone, result_normalFormBelow_none hms' hnone']
      exact .success hf
    · have hlt := of_decide_eq_true (List.mem_filter.mp s.mem).2
      rw [result_normalFormBelow_some rfl hs, result_normalFormBelow_some hms' hs', ← hmonomial]
      exact ih s.monomial hlt hss

theorem normalForm_alike (hf : Alike n f f') :
    SameOutcome (Alike n) (r.normalForm f).result (r'.normalForm f').result := by
  have hsame := check_alike hr hf
  cases hcheck : r.check f with
  | error e =>
    rw [result_normalForm_refused hcheck, result_normalForm_refused (hsame.symm.trans hcheck)]
    exact .failure e
  | ok u =>
    have hcheck' := hsame.symm.trans hcheck
    have hms' : r'.order.descending f'.monomials = r.order.descending f.monomials := by
      rw [hr.order_eq, hf.monomials_eq]
    have hlen : ∀ m ∈ r.order.descending f.monomials, m.length = n :=
      fun _ hm => length_of_mem_descending hf.nvars_eq hm
    rcases (cancelFirst?_alike hr hf hlen).cases_option with
      ⟨e, he, he'⟩ | ⟨hnone, hnone'⟩ | ⟨s, s', hs, hs', hmonomial, hss⟩
    · rw [result_normalForm_error hcheck rfl he, result_normalForm_error hcheck' hms' he']
      exact .failure e
    · rw [result_normalForm_none hcheck rfl hnone, result_normalForm_none hcheck' hms' hnone']
      exact .success hf
    · rw [result_normalForm_some hcheck rfl hs, result_normalForm_some hcheck' hms' hs',
        ← hmonomial]
      exact normalFormBelow_alike hr s.monomial hss

end Run

end Reducer

theorem reduce_alike {R : Type} [CommRing R] [DecidableEq R] [Coefficient R] {n : ℕ}
    {f f' : Polynomial R} {basis basis' : List (Polynomial R)} (hf : Alike n f f')
    (hbasis : List.Forall₂ (Alike n) basis basis') (order : Order)
    (tolerance : Option Tolerance) :
    SameOutcome (Alike n) (reduce f basis order tolerance).result
      (reduce f' basis' order tolerance).result := by
  have hreducers := Reducer.ofBasis_alike hbasis order tolerance
  rw [reduce, reduce]
  generalize Reducer.ofBasis order tolerance basis = x at hreducers ⊢
  generalize Reducer.ofBasis order tolerance basis' = y at hreducers ⊢
  cases hreducers with
  | failure e => exact .failure e
  | success hr => exact Reducer.normalForm_alike hr hf

end PolyIdeal
