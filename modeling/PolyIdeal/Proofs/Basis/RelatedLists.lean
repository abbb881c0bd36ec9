import PolyIdeal.Proofs.Basis.Completion
import PolyIdeal.Proofs.Basis.Settlement
import PolyIdeal.Proofs.SameOutcome

/-!
# Completing and settling related lists

Completion and settlement do what their joins and changes tell them. If those of two lists that are
related element by element always have the same outcome, so do the completions and the settlements.
-/

namespace PolyIdeal

theorem getElem?_related {α β : Type} {rel : α → β → Prop} {l : List α} {l' : List β}
    (h : List.Forall₂ rel l l') (i : ℕ) : Option.Rel rel l[i]? l'[i]? := by
  induction h generalizing i with
  | nil => exact .none
  | cons hab _ ih =>
    cases i with
    | zero => exact .some hab
    | succ i => exact ih i

private theorem exists_getElem?_related {α β : Type} {rel : α → β → Prop} {l : List α} {l' : List β}
    (h : List.Forall₂ rel l l') {i : ℕ} {a : α} (ha : l[i]? = some a) :
    ∃ b, l'[i]? = some b ∧ rel a b := by
  have hrel := getElem?_related h i
  rw [ha] at hrel
  generalize l'[i]? = y at hrel ⊢
  cases hrel with
  | some hab => exact ⟨_, rfl, hab⟩

variable {ε P : Type} {rel : P → P → Prop}

namespace Completion

variable {monomial : P → Option Monomial} {join : List P → ℕ × ℕ → P → P → Traced ε (Option P)}
  {basis basis' : List P}

/-- Joins of related elements have the same outcome. -/
def RelatedJoins (rel : P → P → Prop)
    (join : List P → ℕ × ℕ → P → P → Traced ε (Option P)) : Prop :=
  ∀ {basis basis' : List P} {f f' g g' : P} (p : ℕ × ℕ), List.Forall₂ rel basis basis' →
    rel f f' → rel g g' →
    SameOutcome (Option.Rel rel) (join basis p f g).result (join basis' p f' g').result

private theorem RelatedJoins.of_pair (hjoin : RelatedJoins rel join)
    (hbasis : List.Forall₂ rel basis basis') {p : ℕ × ℕ} {f g : P} (hf : basis[p.1]? = some f)
    (hg : basis[p.2]? = some g) {x : Except Failure (Option P)}
    (hx : (join basis p f g).result = x) :
    ∃ f' g', basis'[p.1]? = some f' ∧ basis'[p.2]? = some g' ∧
      SameOutcome (Option.Rel rel) x (join basis' p f' g').result := by
  obtain ⟨f', hf', hff⟩ := exists_getElem?_related hbasis hf
  obtain ⟨g', hg', hgg⟩ := exists_getElem?_related hbasis hg
  exact ⟨f', g', hf', hg', hx ▸ hjoin p hbasis hff hgg⟩

variable (hmonomial : ∀ a b, rel a b → monomial a = monomial b)
include hmonomial

private theorem advances_eq (hbasis : List.Forall₂ rel basis basis') {r r' : P} (hr : rel r r')
    (p : ℕ × ℕ) : advances monomial basis p r = advances monomial basis' p r' := by
  have hmap := map_eq_of_forall₂ hbasis hmonomial
  have hmonomials : monomials monomial basis = monomials monomial basis' := by
    have hfilter (l : List P) : monomials monomial l = (l.map monomial).filterMap id := by
      rw [List.filterMap_map]
      rfl
    rw [hfilter, hfilter, hmap]
  have hat (i : ℕ) : basis[i]?.bind monomial = basis'[i]?.bind monomial := by
    have hbind (l : List P) : l[i]?.bind monomial = (l.map monomial)[i]?.bind id := by
      rw [List.getElem?_map]
      cases l[i]? <;> rfl
    rw [hbind, hbind, hmap]
  rw [advances, advances, hmonomial r r' hr, hmonomials, joinable, joinable, hat, hat]

theorem complete_related (hjoin : RelatedJoins rel join) (basis : List P)
    (pending : List (ℕ × ℕ)) : ∀ basis', List.Forall₂ rel basis basis' →
      SameOutcome (List.Forall₂ rel) (complete monomial join basis pending).result
        (complete monomial join basis' pending).result := by
  -- The completion of the first list leads; the second one takes the same branch at every pair.
  induction basis, pending using complete.induct monomial join with
  | case1 basis =>
    intro basis' hbasis
    rw [complete, complete]
    exact .success hbasis
  | case2 basis p rest f g hg hf t e he =>
    intro basis' hbasis
    obtain ⟨f', g', hf', hg', hjoined⟩ := hjoin.of_pair hbasis hf hg he
    rw [result_complete_error hf hg he, result_complete_error hf' hg' hjoined.eq_error]
    exact .failure e
  | case3 basis p rest f g hg hf t ht ih =>
    intro basis' hbasis
    obtain ⟨f', g', hf', hg', hjoined⟩ := hjoin.of_pair hbasis hf hg ht
    obtain ⟨_, ht', hnone⟩ := hjoined.exists_of_ok
    cases hnone
    rw [result_complete_none hf hg ht, result_complete_none hf' hg' ht']
    exact ih basis' hbasis
  | case4 basis p rest f g hg hf t r ht hadvances ih =>
    intro basis' hbasis
    obtain ⟨f', g', hf', hg', hjoined⟩ := hjoin.of_pair hbasis hf hg ht
    obtain ⟨_, ht', hsome⟩ := hjoined.exists_of_ok
    cases hsome with
    | some hr =>
      have hadvances' := (advances_eq hmonomial hbasis hr p).symm.trans hadvances
      rw [result_complete_some hf hg ht hadvances, result_complete_some hf' hg' ht' hadvances',
        ← hbasis.length_eq]
      exact ih _ (List.rel_append hbasis (.cons hr .nil))
  | case5 basis p rest f g hg hf t r ht hstuck =>
    intro basis' hbasis
    obtain ⟨f', g', hf', hg', hjoined⟩ := hjoin.of_pair hbasis hf hg ht
    obtain ⟨_, ht', hsome⟩ := hjoined.exists_of_ok
    cases hsome with
    | some hr =>
      have hstuck' := advances_eq hmonomial hbasis hr p ▸ hstuck
      rw [result_complete_stuck hf hg ht hstuck, result_complete_stuck hf' hg' ht' hstuck']
      exact .success (List.rel_append hbasis (.cons hr .nil))
  | case6 basis p rest hnone ih =>
    intro basis' hbasis
    have hskip : basis[p.1]? = none ∨ basis[p.2]? = none := by
      rcases hf : basis[p.1]? with _ | f
      · exact .inl rfl
      · rcases hg : basis[p.2]? with _ | g
        · exact .inr rfl
        · exact (hnone f g hf hg).elim
    have hskip' : basis'[p.1]? = none ∨ basis'[p.2]? = none := by
      simpa only [List.getElem?_eq_none_iff, hbasis.length_eq] using hskip
    rw [complete_skip hskip, complete_skip hskip']
    exact ih basis' hbasis

end Completion

namespace Settlement

variable {support : P → List (List ℕ)} {change : List P → P → Traced ε (Change P)}

/-- The same change, by related elements. -/
inductive RelatedChange (rel : P → P → Prop) : Change P → Change P → Prop
  | kept : RelatedChange rel .kept .kept
  | dropped : RelatedChange rel .dropped .dropped
  | replaced {r r' : P} (h : rel r r') : RelatedChange rel (.replaced r) (.replaced r')

/-- Changes of related elements among related ones have the same outcome. -/
def RelatedChanges (rel : P → P → Prop) (change : List P → P → Traced ε (Change P)) : Prop :=
  ∀ {others others' : List P} {g g' : P}, List.Forall₂ rel others others' → rel g g' →
    SameOutcome (RelatedChange rel) (change others g).result (change others' g').result

variable (hchange : RelatedChanges rel change)
include hchange

private theorem change?_related {before before' after after' : List P}
    (hbefore : List.Forall₂ rel before before') (hafter : List.Forall₂ rel after after') :
    SameOutcome (Option.Rel (List.Forall₂ rel)) (change? change before after).result
      (change? change before' after').result := by
  induction hafter generalizing before before' with
  | nil => exact .success .none
  | cons hg hafter ih =>
    rw [change?, change?]
    refine (hchange (List.rel_append hbefore hafter) hg).result_bind fun c c' _ hc => ?_
    cases hc with
    | kept => exact ih (List.rel_append hbefore (.cons hg .nil))
    | dropped => exact .success (.some (List.rel_append hbefore hafter))
    | replaced hr => exact .success (.some (List.rel_append hbefore (.cons hr hafter)))

private theorem change?_start_related {basis basis' : List P}
    (hbasis : List.Forall₂ rel basis basis') {x : Except Failure (Option (List P))}
    (hx : (change? change [] basis).result = x) :
    SameOutcome (Option.Rel (List.Forall₂ rel)) x (change? change [] basis').result :=
  hx ▸ change?_related hchange .nil hbasis

theorem settle_related (hsupport : ∀ a b, rel a b → support a = support b) (basis : List P) :
    ∀ basis', List.Forall₂ rel basis basis' →
      SameOutcome (List.Forall₂ rel) (settle support change basis).result
        (settle support change basis').result := by
  induction basis using settle.induct support change with
  | case1 basis t e he =>
    intro basis' hbasis
    have hchanged := change?_start_related hchange hbasis he
    rw [result_settle_error he, result_settle_error hchanged.eq_error]
    exact .failure e
  | case2 basis t ht =>
    intro basis' hbasis
    have hchanged := change?_start_related hchange hbasis ht
    obtain ⟨_, ht', hnone⟩ := hchanged.exists_of_ok
    cases hnone
    rw [result_settle_none ht, result_settle_none ht']
    exact .success hbasis
  | case3 basis t next ht hlower ih =>
    intro basis' hbasis
    have hchanged := change?_start_related hchange hbasis ht
    obtain ⟨_, ht', hsome⟩ := hchanged.exists_of_ok
    cases hsome with
    | some hnext =>
      have hlower' := hlower
      rw [map_eq_of_forall₂ hbasis hsupport, map_eq_of_forall₂ hnext hsupport] at hlower'
      rw [result_settle_some ht hlower, result_settle_some ht' hlower']
      exact ih _ hnext
  | case4 basis t next ht hstuck =>
    intro basis' hbasis
    have hchanged := change?_start_related hchange hbasis ht
    obtain ⟨_, ht', hsome⟩ := hchanged.exists_of_ok
    cases hsome with
    | some hnext =>
      have hstuck' := hstuck
      rw [map_eq_of_forall₂ hbasis hsupport, map_eq_of_forall₂ hnext hsupport] at hstuck'
      rw [result_settle_stuck ht hstuck, result_settle_stuck ht' hstuck']
      exact .success hnext

end Settlement

end PolyIdeal
