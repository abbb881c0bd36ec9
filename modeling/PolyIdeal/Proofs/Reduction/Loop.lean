import PolyIdeal.Proofs.Loop
import PolyIdeal.Proofs.Reduction.Tolerance

/-!
# Reduction as a loop

A normal form is where the loop of elementary reductions ends. Its steps look for a monomial to cancel
among all, although only those below the last one can be cancelled.
-/

namespace PolyIdeal.Reducer

open Monomial MonomialOrder PolyIdeal.Polynomial

variable {R : Type} [CommRing R] [DecidableEq R] [Coefficient R] {f : Polynomial R} {r : Reducer R}

section Unfold

theorem result_step? (hcheck : r.check f = .ok ()) :
    (r.step? f).result = (r.cancelFirst? f (r.order.descending f.monomials)).map
      (Option.map Cancellation.outcome) := by
  rw [step?, hcheck]
  rcases r.cancelFirst? f (r.order.descending f.monomials) with e | _ | s <;> rfl

private theorem cancelFirst?_cons_none {m : Monomial} (ms : List Monomial)
    (hnone : cancel? r.tolerance f m (f.coefficient m) r.divisors = .ok none) :
    (r.cancelFirst? f (m :: ms)).map (Option.map Cancellation.outcome) =
      (r.cancelFirst? f ms).map (Option.map Cancellation.outcome) := by
  rw [cancelFirst?, hnone]
  rcases r.cancelFirst? f ms with e | _ | s <;> rfl

/-- Monomials that cannot be cancelled need not be looked at. -/
private theorem cancelFirst?_filter {b : Monomial → Bool} {ms : List Monomial}
    (hnone : ∀ m ∈ ms, b m = false →
      cancel? r.tolerance f m (f.coefficient m) r.divisors = .ok none) :
    (r.cancelFirst? f ms).map (Option.map Cancellation.outcome) =
      (r.cancelFirst? f (ms.filter b)).map (Option.map Cancellation.outcome) := by
  induction ms with
  | nil => rfl
  | cons m ms ih =>
    have htail := ih fun m' hm' => hnone m' (List.mem_cons_of_mem m hm')
    cases hb : b m with
    | false =>
      rw [List.filter_cons_of_neg (by simp [hb]), ← htail,
        cancelFirst?_cons_none ms (hnone m List.mem_cons_self hb)]
    | true =>
      rw [List.filter_cons_of_pos hb]
      cases hfound : cancel? r.tolerance f m (f.coefficient m) r.divisors with
      | error e => simp only [cancelFirst?, hfound, Except.map]
      | ok found =>
        cases found with
        | none => rw [cancelFirst?_cons_none _ hfound, cancelFirst?_cons_none _ hfound, htail]
        | some found => simp only [cancelFirst?, hfound, Except.map, Option.map_some]

end Unfold

variable {n : ℕ} {order : Order} (h : order.accepts n = true) {basis : List (Polynomial R)}
  [ExactCoefficient R] (hr : r.Over h basis)
include hr

private theorem cancel?_of_not_cancellable (hf : f.nvars = n) {d : Fin n →₀ ℕ}
    (hno : ¬ Cancellable (order.monomialOrder n h) (denotations n basis) (f.denote n) d) :
    cancel? r.tolerance f (ofExponents d) (f.coefficient (ofExponents d)) r.divisors =
      .ok none := by
  rw [hr.tolerance_eq, hr.divisors_eq]
  rcases cancel?_spec h hf hr.proper d with ⟨hnone, -⟩ | ⟨g, f', -, -, hcancels⟩
  · exact hnone
  · exact absurd hcancels.cancellable hno

/-- A step finds the cancellation that a search finds outside of which nothing can be cancelled. -/
private theorem result_step?_range (hf : f.nvars = n) {b : Monomial → Bool}
    (houtside : ∀ e ∈ (f.denote n).support, b (ofExponents e) = false →
      ¬ Cancellable (order.monomialOrder n h) (denotations n basis) (f.denote n) e) :
    (r.step? f).result = (r.cancelFirst? f ((r.order.descending f.monomials).filter b)).map
      (Option.map Cancellation.outcome) := by
  rw [result_step? (check_ok h hr hf)]
  apply cancelFirst?_filter
  intro m hm hb
  obtain ⟨e, rfl⟩ := exists_ofExponents (length_of_mem_descending hf hm)
  exact cancel?_of_not_cancellable h hr hf (houtside e ((mem_descending_iff hf).mp hm) hb)

theorem result_step?_none_iff (hf : f.nvars = n) :
    (r.step? f).result = .ok none ↔
      Irreducible (order.monomialOrder n h) (denotations n basis) (f.denote n) := by
  rw [result_step? (check_ok h hr hf)]
  rcases cancelFirst?_start h hr hf with
    ⟨hnone, hirr⟩ | ⟨s, d, hsome, -, -, hd, hcancels, -⟩
  · rw [hnone]
    exact ⟨fun _ => hirr, fun _ => rfl⟩
  · rw [hsome]
    exact ⟨nofun, fun hirr => absurd hcancels.cancellable (hirr d hd)⟩

private theorem loop_normalFormBelow (b : Fin n →₀ ℕ) (f : Polynomial R) (hf : f.nvars = n)
    (habove : ∀ e ∈ (f.denote n).support, b ≼[order.monomialOrder n h] e →
      ¬ Cancellable (order.monomialOrder n h) (denotations n basis) (f.denote n) e) :
    Loop (fun f => (r.step? f).result) f (r.normalFormBelow (ofExponents b) f).result := by
  generalize hb : (order.monomialOrder n h).toSyn b = x
  induction x using WellFoundedLT.induction generalizing b f with
  | ind x ih =>
    subst hb
    have houtside (e : Fin n →₀ ℕ) (he : e ∈ (f.denote n).support)
        (hb : decide (r.order.Below (ofExponents e) (ofExponents b)) = false) :=
      habove e he ((below_eq_false_iff h hr).mp hb)
    have hstep := result_step?_range h hr hf (b := fun m => r.order.Below m (ofExponents b))
      houtside
    rcases cancelFirst?_range h hr hf (b := fun m => r.order.Below m (ofExponents b)) houtside
      with ⟨hnone, -⟩ | ⟨s, d, hsome, hs, hsn, -, hbd, -, hrest⟩
    · rw [hnone] at hstep
      rw [result_normalFormBelow_none rfl hnone]
      exact .ends hstep
    · rw [hsome] at hstep
      rw [result_normalFormBelow_some rfl hsome, hs]
      exact .continues hstep (ih _ ((below_eq_true_iff h hr).mp hbd) d s.outcome hsn hrest rfl)

theorem loop_normalForm (hf : f.nvars = n) :
    Loop (fun f => (r.step? f).result) f (r.normalForm f).result := by
  have hcheck := check_ok h hr hf
  have hstep := result_step? hcheck
  rcases cancelFirst?_start h hr hf with
    ⟨hnone, -⟩ | ⟨s, d, hsome, hs, hsn, -, -, hrest⟩
  · rw [hnone] at hstep
    rw [result_normalForm_none hcheck rfl hnone]
    exact .ends hstep
  · rw [hsome] at hstep
    rw [result_normalForm_some hcheck rfl hsome, hs]
    exact .continues hstep (loop_normalFormBelow h hr d s.outcome hsn hrest)

theorem nvars_of_step? (hf : f.nvars = n) {f' : Polynomial R}
    (hstep : (r.step? f).result = .ok (some f')) : f'.nvars = n := by
  rw [result_step? (check_ok h hr hf)] at hstep
  rcases cancelFirst?_start h hr hf with ⟨hnone, -⟩ | ⟨s, -, hsome, -, hsn, -⟩
  · rw [hnone] at hstep
    cases hstep
  · rw [hsome] at hstep
    cases hstep
    exact hsn

theorem loop_normalForm_tolerance (hf : f.nvars = n) (tolerance : Option Tolerance) :
    Loop (fun f => (({ r with tolerance } : Reducer R).step? f).result) f
      (({ r with tolerance } : Reducer R).normalForm f).result := by
  have hsame (f : Polynomial R) (hf : f.nvars = n) :
      (({ r with tolerance } : Reducer R).step? f).result = (r.step? f).result := by
    have hcheck := check_ok h hr hf
    have hcheck' : ({ r with tolerance } : Reducer R).check f = .ok () := hcheck
    rw [result_step? hcheck, result_step? hcheck']
    dsimp only
    rw [cancelFirst?_tolerance h hr tolerance hf fun _ hm => length_of_mem_descending hf hm]
  rw [result_normalForm_tolerance h hr tolerance hf]
  exact (loop_normalForm h hr hf).congr hsame (fun _ _ hf => nvars_of_step? h hr hf) hf

end PolyIdeal.Reducer
