import PolyIdeal.Proofs.Basis.Completion
import PolyIdeal.Proofs.Loop

/-!
# Joining pair after pair

The completion takes the first pair that has not been joined yet, until there is none. It is computed
with a list of the pending pairs and under a guard that makes sure of an end. Where the guard always
holds the loop over the pairs comes to the same end.
-/

namespace PolyIdeal

namespace Completion

variable {ε P : Type} {monomial : P → Option Monomial}
  {join : List P → ℕ × ℕ → P → P → Traced ε (Option P)}

/-- A list whose pairs are joined one after the other, and the pairs that have been. -/
structure Scan (P : Type) where
  elements : List P
  joined : List (ℕ × ℕ)

namespace Scan

def unjoined (s : Scan P) : List (ℕ × ℕ) :=
  (criticalPairs s.elements.length).filter (· ∉ s.joined)

/-- Joins the first pair that has not been joined yet and appends what it gives. -/
def next (join : List P → ℕ × ℕ → P → P → Traced ε (Option P)) (s : Scan P) :
    Except Failure (Option (Scan P)) :=
  match s.unjoined with
  | [] => .ok none
  | p :: _ =>
    match s.elements[p.1]?, s.elements[p.2]? with
    | some f, some g =>
      (join s.elements p f g).result.map fun r =>
        some ⟨s.elements ++ r.toList, p :: s.joined⟩
    | _, _ => .ok none

variable {s : Scan P} {p : ℕ × ℕ} {rest : List (ℕ × ℕ)}

private theorem ordered_unjoined (s : Scan P) :
    s.unjoined.Pairwise fun p q => pairBefore p q = true :=
  (ordered_criticalPairs _).filter _

theorem unjoined_cons (h : s.unjoined = p :: rest) :
    (⟨s.elements, p :: s.joined⟩ : Scan P).unjoined = rest := by
  have hnodup : (p :: rest).Nodup := h ▸ (nodup_criticalPairs _).filter _
  have hsplit : (⟨s.elements, p :: s.joined⟩ : Scan P).unjoined = s.unjoined.filter (· ≠ p) := by
    simp [unjoined, List.filter_filter]
  rw [hsplit, h, List.filter_cons_of_neg (by simp), List.filter_eq_self]
  intro q hq
  simp only [decide_eq_true_eq]
  rintro rfl
  exact (List.nodup_cons.mp hnodup).1 hq

theorem unjoined_append (h : s.unjoined = p :: rest)
    (hjoined : ∀ q ∈ s.joined, q.2 < s.elements.length) (r : P) :
    (⟨s.elements ++ [r], p :: s.joined⟩ : Scan P).unjoined =
      rest.merge (pairsWith s.elements.length) pairBefore := by
  have hrest := unjoined_cons h
  have hp : p ∈ s.unjoined := h ▸ List.mem_cons_self
  have hplt : p.2 < s.elements.length :=
    (mem_criticalPairs.mp (List.mem_of_mem_filter hp)).2
  have hperm : (⟨s.elements ++ [r], p :: s.joined⟩ : Scan P).unjoined.Perm
      (rest ++ pairsWith s.elements.length) := by
    have hnew : (pairsWith s.elements.length).filter (· ∉ p :: s.joined) =
        pairsWith s.elements.length := by
      rw [List.filter_eq_self]
      intro q hq
      have heq := (mem_pairsWith.mp hq).2
      simp only [decide_eq_true_eq, List.mem_cons, not_or]
      constructor
      · rintro rfl
        omega
      · intro hmem
        exact absurd (hjoined q hmem) (by omega)
    have hsucc := (criticalPairs_succ s.elements.length).filter (· ∉ p :: s.joined)
    rw [List.filter_append, hnew] at hsucc
    rw [← hrest]
    simpa [unjoined] using hsucc
  have hordered : rest.Pairwise fun p q => pairBefore p q = true := hrest ▸ ordered_unjoined _
  refine (hperm.trans (List.merge_perm_append _).symm).eq_of_pairwise ?_ (ordered_unjoined _)
    (pairwise_merge_pairsWith hordered _)
  intro p q _ _ hpq hqp
  simp only [pairBefore, Bool.or_eq_true, Bool.and_eq_true, decide_eq_true_eq, beq_iff_eq] at *
  apply Prod.ext <;> omega

theorem next_nil (h : s.unjoined = []) : s.next join = .ok none := by
  rw [next, h]

theorem next_cons {f g : P} (h : s.unjoined = p :: rest) (hf : s.elements[p.1]? = some f)
    (hg : s.elements[p.2]? = some g) :
    s.next join = (join s.elements p f g).result.map fun r =>
      some ⟨s.elements ++ r.toList, p :: s.joined⟩ := by
  rw [next, h]
  simp only [hf, hg]

theorem lt_length_of_unjoined (h : s.unjoined = p :: rest) :
    p.1 < s.elements.length ∧ p.2 < s.elements.length := by
  have hp : p ∈ s.unjoined := h ▸ List.mem_cons_self
  have hlt := mem_criticalPairs.mp (List.mem_of_mem_filter hp)
  omega

private theorem lt_length_of_mem_cons (h : s.unjoined = p :: rest)
    (hjoined : ∀ q ∈ s.joined, q.2 < s.elements.length) :
    ∀ q ∈ p :: s.joined, q.2 < s.elements.length := by
  intro q hq
  rcases List.mem_cons.mp hq with rfl | hq
  · exact (lt_length_of_unjoined h).2
  · exact hjoined q hq

end Scan

theorem loop_complete {Inv : List P → Prop}
    (hstep : ∀ basis p f g r, Inv basis → basis[p.1]? = some f → basis[p.2]? = some g →
      (join basis p f g).result = .ok (some r) →
        advances monomial basis p r = true ∧ Inv (basis ++ [r]))
    {basis : List P} {pending : List (ℕ × ℕ)} (hinv : Inv basis) (joined : List (ℕ × ℕ))
    (hpending : (⟨basis, joined⟩ : Scan P).unjoined = pending)
    (hjoined : ∀ q ∈ joined, q.2 < basis.length) :
    ∃ outcome, Loop (Scan.next join) ⟨basis, joined⟩ outcome ∧
      outcome.map Scan.elements = (complete monomial join basis pending).result := by
  revert joined
  induction basis, pending using complete.induct monomial join with
  | case1 basis =>
    intro joined hpending _
    rw [complete]
    exact ⟨_, .ends (Scan.next_nil hpending), rfl⟩
  | case2 basis p rest f g hg hf t e he =>
    intro joined hpending _
    have hnext : Scan.next join ⟨basis, joined⟩ = .error e := by
      rw [Scan.next_cons hpending hf hg, he]
      rfl
    rw [result_complete_error hf hg he]
    exact ⟨_, .fails hnext, rfl⟩
  | case3 basis p rest f g hg hf t ht ih =>
    intro joined hpending hjoined
    have hnext : Scan.next join ⟨basis, joined⟩ = .ok (some ⟨basis, p :: joined⟩) := by
      rw [Scan.next_cons hpending hf hg, ht]
      simp [Except.map]
    obtain ⟨outcome, hloop, hresult⟩ := ih hinv (p :: joined) (Scan.unjoined_cons hpending)
      (Scan.lt_length_of_mem_cons hpending hjoined)
    rw [result_complete_none hf hg ht]
    exact ⟨outcome, .continues hnext hloop, hresult⟩
  | case4 basis p rest f g hg hf t r ht hadvances ih =>
    intro joined hpending hjoined
    have hnext : Scan.next join ⟨basis, joined⟩ = .ok (some ⟨basis ++ [r], p :: joined⟩) := by
      rw [Scan.next_cons hpending hf hg, ht]
      rfl
    have hjoined' : ∀ q ∈ p :: joined, q.2 < (basis ++ [r]).length := by
      intro q hq
      rw [List.length_append]
      exact Nat.lt_add_right _ (Scan.lt_length_of_mem_cons hpending hjoined q hq)
    obtain ⟨outcome, hloop, hresult⟩ := ih (hstep basis p f g r hinv hf hg ht).2 (p :: joined)
      (Scan.unjoined_append hpending hjoined r) hjoined'
    rw [result_complete_some hf hg ht hadvances]
    exact ⟨outcome, .continues hnext hloop, hresult⟩
  | case5 basis p rest f g hg hf t r ht hstuck =>
    exact absurd (hstep basis p f g r hinv hf hg ht).1 hstuck
  | case6 basis p rest hnone ih =>
    intro joined hpending
    obtain ⟨hlt, hlt'⟩ := Scan.lt_length_of_unjoined hpending
    exact (hnone _ _ (List.getElem?_eq_getElem hlt) (List.getElem?_eq_getElem hlt')).elim

section Ends

variable {Inv : List P → Prop}
  (hstep : ∀ basis p f g, Inv basis → basis[p.1]? = some f → basis[p.2]? = some g →
    (join basis p f g).result = .ok none ∨
      ∃ r, (join basis p f g).result = .ok (some r) ∧ advances monomial basis p r = true ∧
        Inv (basis ++ [r]))
include hstep

private theorem Scan.next_invariant {s : Scan P} (hinv : Inv s.elements) :
    s.next join = .ok none ∨ ∃ s', s.next join = .ok (some s') ∧ Inv s'.elements := by
  cases h : s.unjoined with
  | nil => exact .inl (next_nil h)
  | cons p rest =>
    obtain ⟨hlt, hlt'⟩ := lt_length_of_unjoined h
    have hf := List.getElem?_eq_getElem hlt
    have hg := List.getElem?_eq_getElem hlt'
    rw [next_cons h hf hg]
    rcases hstep _ p _ _ hinv hf hg with hnone | ⟨r, hsome, -, hinv'⟩
    · rw [hnone]
      refine .inr ⟨⟨s.elements ++ [], p :: s.joined⟩, rfl, ?_⟩
      rwa [List.append_nil]
    · rw [hsome]
      exact .inr ⟨⟨s.elements ++ [r], p :: s.joined⟩, rfl, hinv'⟩

/-- The loop over the pairs ends with what the completion gives, if no join fails and all that is
appended advances. -/
theorem loop_complete_ends {basis : List P} (hinv : Inv basis) :
    ∃ completed joined, Loop (Scan.next join) ⟨basis, []⟩ (.ok ⟨completed, joined⟩) ∧
      (complete monomial join basis (criticalPairs basis.length)).result = .ok completed ∧
      Inv completed := by
  have hpending : (⟨basis, []⟩ : Scan P).unjoined = criticalPairs basis.length := by
    simp [Scan.unjoined]
  have hadvances (basis : List P) (p : ℕ × ℕ) (f g r : P) (hinv : Inv basis)
      (hf : basis[p.1]? = some f) (hg : basis[p.2]? = some g)
      (hr : (join basis p f g).result = .ok (some r)) :
      advances monomial basis p r = true ∧ Inv (basis ++ [r]) := by
    rcases hstep basis p f g hinv hf hg with hnone | ⟨r', hsome, hkept⟩
    · cases hr.symm.trans hnone
    · cases hr.symm.trans hsome
      exact hkept
  obtain ⟨outcome, hloop, hresult⟩ := loop_complete hadvances hinv [] hpending (by simp)
  obtain ⟨⟨completed, joined⟩, rfl, hinv', -⟩ :=
    hloop.invariant (fun s => Scan.next_invariant hstep (s := s)) hinv
  exact ⟨completed, joined, hloop, hresult.symm, hinv'⟩

end Ends

end Completion

end PolyIdeal
