import Mathlib.Logic.Relation
import PolyIdeal.Failure

/-!
# Loops

A loop repeats a step until nothing is left to do. No bound on the number of steps is part of it: a
loop that runs forever has no outcome, and any other has a single one.
-/

namespace PolyIdeal

variable {S : Type}

/-- A run of a loop to its end. -/
inductive Loop (next : S → Except Failure (Option S)) : S → Except Failure S → Prop
  | fails {s : S} {e : Failure} (hnext : next s = .error e) : Loop next s (.error e)
  | ends {s : S} (hnext : next s = .ok none) : Loop next s (.ok s)
  | continues {s s' : S} {outcome : Except Failure S} (hnext : next s = .ok (some s'))
      (hrest : Loop next s' outcome) : Loop next s outcome

/-- That a loop comes from one state to another. -/
def Reaches (next : S → Except Failure (Option S)) : S → S → Prop :=
  Relation.ReflTransGen fun s s' => next s = .ok (some s')

namespace Reaches

variable {next : S → Except Failure (Option S)} {s s' : S}

theorem invariant {Inv : S → Prop}
    (hstep : ∀ s s', Inv s → next s = .ok (some s') → Inv s') (h : Reaches next s s')
    (hinv : Inv s) : Inv s' := by
  induction h with
  | refl => exact hinv
  | tail _ hnext ih => exact hstep _ _ ih hnext

end Reaches

namespace Loop

variable {next : S → Except Failure (Option S)} {s : S} {outcome outcome' : Except Failure S}

theorem unique (h : Loop next s outcome) (h' : Loop next s outcome') : outcome = outcome' := by
  induction h with
  | fails hnext => cases h' <;> simp_all
  | ends hnext => cases h' <;> simp_all
  | continues hnext _ ih =>
    cases h' with
    | fails hnext' => simp_all
    | ends hnext' => simp_all
    | continues hnext' hrest' =>
      rw [hnext] at hnext'
      cases hnext'
      exact ih hrest'

theorem reaches (h : Loop next s outcome) {s' : S} (hok : outcome = .ok s') : Reaches next s s' := by
  induction h with
  | fails hnext => cases hok
  | ends hnext =>
    cases hok
    exact .refl
  | continues hnext _ ih => exact .head hnext (ih hok)

/-- What every step keeps holds in the end, if no step fails. -/
theorem invariant {Inv : S → Prop}
    (hstep : ∀ s, Inv s → next s = .ok none ∨ ∃ s', next s = .ok (some s') ∧ Inv s')
    (h : Loop next s outcome) (hinv : Inv s) :
    ∃ s', outcome = .ok s' ∧ Inv s' ∧ next s' = .ok none := by
  induction h with
  | fails hnext => rcases hstep _ hinv with hok | ⟨s', hok, -⟩ <;> simp_all
  | @ends s hnext => exact ⟨s, rfl, hinv, hnext⟩
  | continues hnext _ ih =>
    rcases hstep _ hinv with hok | ⟨s', hok, hinv'⟩
    · simp_all
    · rw [hnext] at hok
      cases hok
      exact ih hinv'

theorem congr {next' : S → Except Failure (Option S)} {Inv : S → Prop}
    (hsame : ∀ s, Inv s → next' s = next s)
    (hkept : ∀ s s', Inv s → next s = .ok (some s') → Inv s') (h : Loop next s outcome)
    (hinv : Inv s) : Loop next' s outcome := by
  induction h with
  | fails hnext => exact .fails ((hsame _ hinv).trans hnext)
  | ends hnext => exact .ends ((hsame _ hinv).trans hnext)
  | continues hnext _ ih =>
    exact .continues ((hsame _ hinv).trans hnext) (ih (hkept _ _ hinv hnext))

end Loop

end PolyIdeal
