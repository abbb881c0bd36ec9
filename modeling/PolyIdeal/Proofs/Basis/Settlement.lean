import PolyIdeal.Basis.Settlement
import PolyIdeal.Proofs.Loop
import PolyIdeal.Proofs.Traced

/-!
# Settling a list

The settlement changes the first element that changes, until none does. It is computed under a guard
that makes sure of an end. Where every change lowers the list the loop of changes comes to the same
end without it, and what the changes keep holds there.
-/

namespace PolyIdeal

namespace Settlement

variable {ε P : Type} {change : List P → P → Traced ε (Change P)} {support : P → List (List Nat)}
  {basis basis' before after : List P} {g : P}

theorem result_change?_kept (h : (change (before ++ after) g).result = .ok .kept) :
    (change? change before (g :: after)).result =
      (change? change (before ++ [g]) after).result := by
  rw [change?, Traced.result_bind h]

theorem result_change?_dropped (h : (change (before ++ after) g).result = .ok .dropped) :
    (change? change before (g :: after)).result = .ok (some (before ++ after)) := by
  rw [change?, Traced.result_bind h]
  rfl

theorem result_change?_replaced {r : P}
    (h : (change (before ++ after) g).result = .ok (.replaced r)) :
    (change? change before (g :: after)).result = .ok (some (before ++ r :: after)) := by
  rw [change?, Traced.result_bind h]
  rfl

theorem result_settle_none (h : (change? change [] basis).result = .ok none) :
    (settle support change basis).result = .ok basis := by
  rw [settle]
  simp only [h]

theorem result_settle_some
    (h : (change? change [] basis).result = .ok (some basis'))
    (hlower : ShortLex Lower (basis'.map support) (basis.map support)) :
    (settle support change basis).result = (settle support change basis').result := by
  rw [settle]
  simp only [h, hlower, dite_true]

theorem result_settle_error {e : Failure} (h : (change? change [] basis).result = .error e) :
    (settle support change basis).result = .error e := by
  rw [settle]
  simp only [h]

theorem result_settle_stuck (h : (change? change [] basis).result = .ok (some basis'))
    (hstuck : ¬ ShortLex Lower (basis'.map support) (basis.map support)) :
    (settle support change basis).result = .ok basis' := by
  rw [settle]
  simp only [h, hstuck, dite_false]

def next (change : List P → P → Traced ε (Change P)) (basis : List P) :
    Except Failure (Option (List P)) :=
  (change? change [] basis).result

/-- A change of one element is what changes a list. -/
inductive Changed (change : List P → P → Traced ε (Change P)) (basis : List P) : List P → Prop
  | dropped {before after : List P} {g : P} (hbasis : basis = before ++ g :: after)
      (hchange : (change (before ++ after) g).result = .ok .dropped) :
    Changed change basis (before ++ after)
  | replaced {before after : List P} {g r : P} (hbasis : basis = before ++ g :: after)
      (hchange : (change (before ++ after) g).result = .ok (.replaced r)) :
    Changed change basis (before ++ r :: after)

theorem change?_changed {before after : List P}
    (hchange : ∀ before' g after', before ++ after = before' ++ g :: after' →
      ∃ c, (change (before' ++ after') g).result = .ok c) :
    (change? change before after).result = .ok none ∨
      ∃ basis', (change? change before after).result = .ok (some basis') ∧
        Changed change (before ++ after) basis' := by
  induction after generalizing before with
  | nil => exact .inl rfl
  | cons g after ih =>
    obtain ⟨c, hc⟩ := hchange before g after rfl
    cases c with
    | kept =>
      have heq : before ++ g :: after = (before ++ [g]) ++ after := by simp
      rw [result_change?_kept hc]
      rw [heq] at hchange ⊢
      exact ih hchange
    | dropped => exact .inr ⟨_, result_change?_dropped hc, .dropped rfl hc⟩
    | replaced r => exact .inr ⟨_, result_change?_replaced hc, .replaced rfl hc⟩

private theorem length_change?_le
    (h : (change? change before after).result = .ok (some basis')) :
    basis'.length ≤ before.length + after.length := by
  induction after generalizing before with
  | nil => cases h
  | cons g after ih =>
    rw [change?] at h
    obtain ⟨c, -, hc⟩ := Traced.exists_of_result_bind h
    cases c with
    | kept =>
      have hle := ih hc
      simp only [List.length_append, List.length_cons, List.length_nil] at hle ⊢
      omega
    | dropped =>
      cases hc
      simp only [List.length_append, List.length_cons]
      omega
    | replaced r =>
      cases hc
      simp only [List.length_append, List.length_cons]
      omega

theorem length_settle_le {settled : List P}
    (h : (settle support change basis).result = .ok settled) :
    settled.length ≤ basis.length := by
  induction basis using settle.induct support change with
  | case1 basis t e he =>
    rw [result_settle_error he] at h
    cases h
  | case2 basis t ht =>
    rw [result_settle_none ht] at h
    cases h
    exact Nat.le_refl _
  | case3 basis t basis' ht hlower ih =>
    rw [result_settle_some ht hlower] at h
    have hchange := length_change?_le ht
    rw [List.length_nil, Nat.zero_add] at hchange
    exact Nat.le_trans (ih h) hchange
  | case4 basis t basis' ht hstuck =>
    rw [result_settle_stuck ht hstuck] at h
    cases h
    simpa using length_change?_le ht

/-- The settlement is the loop that makes one change after the other, if each lowers the list. -/
theorem loop_settle {Inv : List P → Prop}
    (hstep : ∀ basis basis', Inv basis → next change basis = .ok (some basis') →
      ShortLex Lower (basis'.map support) (basis.map support) ∧ Inv basis') (hinv : Inv basis) :
    Loop (next change) basis (settle support change basis).result := by
  induction basis using settle.induct support change with
  | case1 basis t e he =>
    rw [result_settle_error he]
    exact .fails he
  | case2 basis t ht =>
    rw [result_settle_none ht]
    exact .ends ht
  | case3 basis t basis' ht hlower ih =>
    rw [result_settle_some ht hlower]
    exact .continues ht (ih (hstep basis basis' hinv ht).2)
  | case4 basis t basis' ht hstuck => exact absurd (hstep basis basis' hinv ht).1 hstuck

/-- The loop of changes ends with what the settlement gives, if no change fails and each lowers the
list. What every change keeps holds in the end. -/
theorem loop_settle_ends {Inv : List P → Prop}
    (hstep : ∀ basis, Inv basis → next change basis = .ok none ∨
      ∃ basis', next change basis = .ok (some basis') ∧
        ShortLex Lower (basis'.map support) (basis.map support) ∧ Inv basis') (hinv : Inv basis) :
    ∃ settled, Loop (next change) basis (.ok settled) ∧
      (settle support change basis).result = .ok settled ∧ Inv settled ∧
      next change settled = .ok none := by
  have hlower (basis basis' : List P) (hinv : Inv basis)
      (hnext : next change basis = .ok (some basis')) :
      ShortLex Lower (basis'.map support) (basis.map support) ∧ Inv basis' := by
    rcases hstep basis hinv with hnone | ⟨basis'', hsome, hkept⟩
    · cases hnext.symm.trans hnone
    · cases hnext.symm.trans hsome
      exact hkept
  have hkept (basis : List P) (hinv : Inv basis) : next change basis = .ok none ∨
      ∃ basis', next change basis = .ok (some basis') ∧ Inv basis' := by
    rcases hstep basis hinv with hnone | ⟨basis', hsome, -, hinv'⟩
    · exact .inl hnone
    · exact .inr ⟨basis', hsome, hinv'⟩
  have hloop := loop_settle hlower hinv
  obtain ⟨settled, hsettled, hinv', hdone⟩ := hloop.invariant hkept hinv
  rw [hsettled] at hloop
  exact ⟨settled, hloop, hsettled, hinv', hdone⟩

end Settlement

end PolyIdeal
