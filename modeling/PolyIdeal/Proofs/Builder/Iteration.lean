import Mathlib.Data.List.Basic
import PolyIdeal.Builder.Cursor
import PolyIdeal.Coefficient.Scalar

/-!
# Iteration

Requests to a builder and steps of any number of cursors over it, in any order. A cursor yields the
terms that the builder had when it was made, as long as the builder is not modified. After that it
fails once if terms are left, and it stops.
-/

namespace PolyIdeal

/-- What is done to a builder and its cursors: a request, a new cursor, or a step of cursor `i`. -/
inductive Action
  | request (r : Builder.Request)
  | start
  | next (i : ℕ)

/-- A builder with the cursors that were made over it. -/
structure Iteration (R : Type) where
  builder : Builder R
  cursors : List (Cursor R)

namespace Iteration

variable {R : Type} [Zero R] [DecidableEq R] [Add R] [Coefficient R]

/-- The state after an action, and the answer if it is a step of a cursor. -/
def step (s : Iteration R) : Action → Iteration R × Option (Except Failure (Monomial × R))
  | .request r => ({ s with builder := (s.builder.apply r).1 }, none)
  | .start => ({ s with cursors := s.cursors ++ [.start s.builder] }, none)
  | .next i =>
    match s.cursors[i]? with
    | none => (s, none)
    | some c => ({ s with cursors := s.cursors.set i (c.next s.builder).1 }, (c.next s.builder).2)

def run (s : Iteration R) (actions : List Action) : Iteration R :=
  actions.foldl (fun s a => (s.step a).1) s

def isStepOf (k : ℕ) : Action → Bool
  | .next i => i = k
  | _ => false

def answers (s : Iteration R) (k : ℕ) : List Action → List (Except Failure (Monomial × R))
  | [] => []
  | a :: actions =>
    let rest := (s.step a).1.answers k actions
    if isStepOf k a then (s.step a).2.toList ++ rest else rest

end Iteration

namespace Builder

variable {R : Type} [Zero R] [DecidableEq R] [Add R] [Coefficient R]

/-- Whether a request modifies a builder: if it succeeds, and a request to add terms if there is a
first one to be added. -/
def isModifiedBy (b : Builder R) : Request → Bool
  | .add nvars terms =>
    nvars = b.nvars && terms.head?.any fun t => (Coefficient.ofScalar? (R := R) t.2).isSome
  | r => (b.apply r).2.isOk

end Builder

namespace Iteration

variable {R : Type} [Zero R] [DecidableEq R] [Add R] [Coefficient R]

/-- Whether some action modifies the builder. -/
def isModifiedBy (s : Iteration R) : List Action → Bool
  | [] => false
  | .request r :: actions =>
    s.builder.isModifiedBy r || (s.step (.request r)).1.isModifiedBy actions
  | a :: actions => (s.step a).1.isModifiedBy actions

end Iteration

namespace Builder

variable {R : Type} [Zero R] [DecidableEq R] [Add R] [Coefficient R] {b : Builder R}

private theorem generation_le_addTerms (b : Builder R) (terms : List (Monomial × Scalar)) :
    b.generation ≤ (b.addTerms terms).1.generation := by
  induction terms generalizing b with
  | nil => exact Nat.le_refl _
  | cons t terms ih =>
    rw [addTerms]
    split
    · exact Nat.le_refl _
    · rename_i c _
      exact Nat.le_trans (Nat.le_succ b.generation) (ih (b.increase t.1 c))

private theorem isModifiedBy_or (b : Builder R) (r : Request) :
    (b.isModifiedBy r = true ∧ b.generation < (b.apply r).1.generation) ∨
      (b.isModifiedBy r = false ∧ (b.apply r).1 = b) := by
  cases r with
  | set exponents v =>
    change ((b.apply (.set exponents v)).2.isOk = true ∧ _) ∨
      ((b.apply (.set exponents v)).2.isOk = false ∧ _)
    rw [apply]
    cases b.monomial? exponents with
    | error e => exact .inr ⟨rfl, rfl⟩
    | ok m =>
      cases Coefficient.ofOperand? (R := R) v with
      | error e => exact .inr ⟨rfl, rfl⟩
      | ok c => exact .inl ⟨rfl, Nat.lt_succ_self b.generation⟩
  | addTerm exponents v =>
    change ((b.apply (.addTerm exponents v)).2.isOk = true ∧ _) ∨
      ((b.apply (.addTerm exponents v)).2.isOk = false ∧ _)
    rw [apply]
    cases b.monomial? exponents with
    | error e => exact .inr ⟨rfl, rfl⟩
    | ok m =>
      cases Coefficient.ofOperand? (R := R) v with
      | error e => exact .inr ⟨rfl, rfl⟩
      | ok c => exact .inl ⟨rfl, Nat.lt_succ_self b.generation⟩
  | add nvars terms =>
    rw [isModifiedBy, apply]
    by_cases hn : nvars = b.nvars
    · rw [if_pos hn, decide_eq_true hn, Bool.true_and]
      cases terms with
      | nil => exact .inr ⟨rfl, rfl⟩
      | cons t terms =>
        rw [addTerms, List.head?_cons, Option.any_some]
        cases Coefficient.ofScalar? (R := R) t.2 with
        | none => exact .inr ⟨rfl, rfl⟩
        | some c =>
          have hle := generation_le_addTerms (b.increase t.1 c) terms
          exact .inl ⟨rfl, Nat.lt_of_lt_of_le (Nat.lt_succ_self b.generation) hle⟩
    · rw [if_neg hn, decide_eq_false hn]
      exact .inr ⟨rfl, rfl⟩
  | remove exponents =>
    change ((b.apply (.remove exponents)).2.isOk = true ∧ _) ∨
      ((b.apply (.remove exponents)).2.isOk = false ∧ _)
    rw [apply]
    cases b.monomial? exponents with
    | error e => exact .inr ⟨rfl, rfl⟩
    | ok m => exact .inl ⟨rfl, Nat.lt_succ_self b.generation⟩

private theorem generation_lt_apply {r : Request} (h : b.isModifiedBy r = true) :
    b.generation < (b.apply r).1.generation :=
  (b.isModifiedBy_or r).elim And.right fun hnot => absurd (hnot.1.symm.trans h) Bool.false_ne_true

theorem apply_eq_self {r : Request} (h : b.isModifiedBy r = false) : (b.apply r).1 = b :=
  (b.isModifiedBy_or r).elim (fun hmod => absurd (h.symm.trans hmod.1) Bool.false_ne_true) And.right

private theorem generation_le_apply (b : Builder R) (r : Request) :
    b.generation ≤ (b.apply r).1.generation := by
  rcases b.isModifiedBy_or r with ⟨-, hlt⟩ | ⟨-, heq⟩
  · exact Nat.le_of_lt hlt
  · exact Nat.le_of_eq (congrArg generation heq).symm

end Builder

namespace Cursor

variable {R : Type} {c : Cursor R} {b : Builder R} {t : Monomial × R} {rest : List (Monomial × R)}

private theorem next_nil (h : c.remaining = []) : c.next b = (c, .error .exhausted) := by
  rw [next, h]

private theorem next_current (h : c.remaining = t :: rest) (heq : b.generation = c.generation) :
    c.next b = (⟨c.generation, rest⟩, .ok t) := by
  simp only [next, h, heq, if_true]

private theorem next_stale (h : c.remaining = t :: rest) (hne : b.generation ≠ c.generation) :
    c.next b = (⟨c.generation, []⟩, .error .staleCursor) := by
  simp only [next, h, hne, if_false]

end Cursor

namespace Iteration

variable {R : Type} [Zero R] [DecidableEq R] [Add R] [Coefficient R]
variable {s : Iteration R} {k : ℕ} {c : Cursor R}

private theorem getElem?_step {a : Action} (ha : isStepOf k a = false)
    (hk : s.cursors[k]? = some c) : (s.step a).1.cursors[k]? = some c := by
  cases a with
  | request r => exact hk
  | start =>
    change (s.cursors ++ _)[k]? = _
    rw [List.getElem?_append_left (List.getElem?_eq_some_iff.mp hk).1]
    exact hk
  | next i =>
    have hne : i ≠ k := by simpa [isStepOf] using ha
    rw [step]
    split
    · exact hk
    · exact (List.getElem?_set_ne hne).trans hk

omit [Zero R] [DecidableEq R] [Add R] [Coefficient R] in
/-- The first `n` answers of a cursor that gives some answers and then stops. -/
def thenStops : List (Except Failure (Monomial × R)) → ℕ → List (Except Failure (Monomial × R))
  | _, 0 => []
  | [], n + 1 => .error .exhausted :: thenStops [] n
  | a :: l, n + 1 => a :: thenStops l n

def steps (k : ℕ) : List Action → ℕ
  | [] => 0
  | a :: actions => if isStepOf k a then steps k actions + 1 else steps k actions

private theorem isStepOf_eq_true {a : Action} : isStepOf k a = true ↔ a = .next k := by
  cases a <;> simp [isStepOf]

private theorem answers_next (actions : List Action) (hk : s.cursors[k]? = some c) :
    (s.step (.next k)).1.builder = s.builder ∧
      (s.step (.next k)).1.cursors[k]? = some (c.next s.builder).1 ∧
      s.answers k (.next k :: actions) =
        (c.next s.builder).2 :: (s.step (.next k)).1.answers k actions := by
  have hlt : k < s.cursors.length := (List.getElem?_eq_some_iff.mp hk).1
  rw [answers, isStepOf_eq_true.mpr rfl, if_pos rfl, step, hk]
  exact ⟨rfl, List.getElem?_set_self hlt, rfl⟩

private theorem answers_other {a : Action} {actions : List Action} (ha : isStepOf k a = false) :
    s.answers k (a :: actions) = (s.step a).1.answers k actions := by
  rw [answers, ha]
  rfl

private theorem generation_le_step (s : Iteration R) (a : Action) :
    s.builder.generation ≤ (s.step a).1.builder.generation := by
  cases a with
  | request r => exact s.builder.generation_le_apply r
  | start => exact Nat.le_refl _
  | next i =>
    rw [step]
    split <;> exact Nat.le_refl _

private theorem of_isModifiedBy_cons {a : Action} {actions : List Action}
    (h : s.isModifiedBy (a :: actions) = false) :
    (s.step a).1.builder = s.builder ∧ (s.step a).1.isModifiedBy actions = false := by
  cases a with
  | request r =>
    obtain ⟨hr, hrest⟩ := Bool.or_eq_false_iff.mp h
    exact ⟨Builder.apply_eq_self hr, hrest⟩
  | start => exact ⟨rfl, h⟩
  | next i =>
    refine ⟨?_, h⟩
    rw [step]
    split <;> rfl

private theorem answers_of_lt (actions : List Action) (hk : s.cursors[k]? = some c)
    (hlt : c.generation < s.builder.generation) :
    s.answers k actions =
      thenStops (if c.remaining = [] then [] else [.error .staleCursor]) (steps k actions) := by
  induction actions generalizing s c with
  | nil => rw [answers, steps, thenStops]
  | cons a actions ih =>
    cases ha : isStepOf k a with
    | true =>
      obtain rfl := isStepOf_eq_true.mp ha
      obtain ⟨hbuilder, hk', hanswers⟩ := answers_next actions hk
      rw [hanswers, steps, ha, if_pos rfl]
      cases hremaining : c.remaining with
      | nil =>
        rw [Cursor.next_nil hremaining] at hk' ⊢
        rw [ih hk' (hbuilder ▸ hlt), hremaining]
        rfl
      | cons t rest =>
        rw [Cursor.next_stale hremaining (Nat.ne_of_gt hlt)] at hk' ⊢
        rw [ih hk' (hbuilder ▸ hlt)]
        rfl
    | false =>
      have hlt' := Nat.lt_of_lt_of_le hlt (s.generation_le_step a)
      rw [answers_other ha, steps, ha, if_neg Bool.false_ne_true]
      exact ih (getElem?_step ha hk) hlt'

private theorem answers_of_eq {actions : List Action} (hk : s.cursors[k]? = some c)
    (heq : s.builder.generation = c.generation) (hactions : s.isModifiedBy actions = false) :
    s.answers k actions = thenStops (c.remaining.map .ok) (steps k actions) ∧
      (s.run actions).cursors[k]? = some ⟨c.generation, c.remaining.drop (steps k actions)⟩ ∧
      (s.run actions).builder = s.builder := by
  induction actions generalizing s c with
  | nil => exact ⟨by rw [answers, steps, thenStops], hk, rfl⟩
  | cons a actions ih =>
    obtain ⟨hsame, hrest⟩ := of_isModifiedBy_cons hactions
    cases ha : isStepOf k a with
    | true =>
      obtain rfl := isStepOf_eq_true.mp ha
      obtain ⟨-, hk', hanswers⟩ := answers_next actions hk
      rw [hanswers, steps, ha, if_pos rfl]
      cases hremaining : c.remaining with
      | nil =>
        rw [Cursor.next_nil hremaining] at hk' ⊢
        obtain ⟨hrun, hcursor, hbuilder⟩ := ih hk' (hsame ▸ heq) hrest
        rw [hremaining, List.drop_nil] at hcursor
        rw [hrun, hremaining]
        exact ⟨rfl, hcursor, hbuilder.trans hsame⟩
      | cons t rest =>
        rw [Cursor.next_current hremaining heq] at hk' ⊢
        obtain ⟨hrun, hcursor, hbuilder⟩ := ih hk' (hsame ▸ heq) hrest
        rw [hrun]
        exact ⟨rfl, hcursor, hbuilder.trans hsame⟩
    | false =>
      obtain ⟨hanswers, hcursor, hbuilder⟩ :=
        ih (getElem?_step ha hk) ((congrArg Builder.generation hsame).trans heq) hrest
      rw [answers_other ha, steps, ha, if_neg Bool.false_ne_true]
      exact ⟨hanswers, hcursor, hbuilder.trans hsame⟩

private theorem answers_append (s : Iteration R) (k : ℕ) (actions actions' : List Action) :
    s.answers k (actions ++ actions') =
      s.answers k actions ++ (s.run actions).answers k actions' := by
  induction actions generalizing s with
  | nil => rfl
  | cons a actions ih =>
    rw [List.cons_append, answers, answers, ih]
    split
    · exact (List.append_assoc _ _ _).symm
    · rfl

private theorem exists_first_modification {actions : List Action}
    (h : s.isModifiedBy actions = true) :
    ∃ before r after, actions = before ++ .request r :: after ∧ s.isModifiedBy before = false ∧
      (s.run before).builder.isModifiedBy r = true := by
  induction actions generalizing s with
  | nil => exact absurd h Bool.false_ne_true
  | cons a actions ih =>
    cases hfirst : s.isModifiedBy [a] with
    | true =>
      cases a with
      | request r => exact ⟨[], r, actions, rfl, rfl, by simpa [isModifiedBy, run] using hfirst⟩
      | start => exact absurd hfirst Bool.false_ne_true
      | next i => exact absurd hfirst Bool.false_ne_true
    | false =>
      have hcons (actions : List Action) :
          s.isModifiedBy (a :: actions) = (s.step a).1.isModifiedBy actions := by
        cases a with
        | request r =>
          have hr : s.builder.isModifiedBy r = false := by simpa [isModifiedBy] using hfirst
          rw [isModifiedBy, hr, Bool.false_or]
        | start => rfl
        | next i => rfl
      rw [hcons] at h
      obtain ⟨before, r, after, rfl, hbefore, hr⟩ := ih h
      exact ⟨a :: before, r, after, rfl, (hcons before).trans hbefore, hr⟩

/-- In any course of actions, a new cursor yields the terms that the builder has then, each once and
in their order, and stops, until a request modifies the builder. If terms are left then, its next
step fails and yields none; otherwise it does not notice and goes on to stop. -/
theorem answers_start (s : Iteration R) (actions : List Action) :
    ((s.step .start).1.isModifiedBy actions = false ∧
      (s.step .start).1.answers s.cursors.length actions =
        thenStops (s.builder.terms.map .ok) (steps s.cursors.length actions)) ∨
    ∃ before r after, actions = before ++ .request r :: after ∧
      (s.step .start).1.isModifiedBy before = false ∧
      ((s.step .start).1.run before).builder.isModifiedBy r = true ∧
      (s.step .start).1.answers s.cursors.length actions =
        thenStops (s.builder.terms.map .ok) (steps s.cursors.length before) ++
        thenStops
          (if s.builder.terms.length ≤ steps s.cursors.length before then []
            else [.error .staleCursor])
          (steps s.cursors.length after) := by
  have hk : (s.step .start).1.cursors[s.cursors.length]? = some (.start s.builder) :=
    List.getElem?_concat_length
  cases hactions : (s.step .start).1.isModifiedBy actions with
  | false => exact .inl ⟨rfl, (answers_of_eq hk rfl hactions).1⟩
  | true =>
    obtain ⟨before, r, after, rfl, hbefore, hr⟩ := exists_first_modification hactions
    obtain ⟨hanswers, hcursor, hbuilder⟩ := answers_of_eq hk rfl hbefore
    have hmodified := Builder.generation_lt_apply hr
    have hlt : s.builder.generation <
        (((s.step .start).1.run before).step (.request r)).1.builder.generation :=
      Nat.lt_of_le_of_lt (Nat.le_of_eq (congrArg Builder.generation hbuilder).symm) hmodified
    have hrest := answers_of_lt after
      (s := (((s.step .start).1.run before).step (.request r)).1) hcursor hlt
    refine .inr ⟨before, r, after, rfl, hbefore, hr, ?_⟩
    rw [answers_append, hanswers, answers_other rfl, hrest]
    simp only [Cursor.start, List.drop_eq_nil_iff]

/-- What iteration is said to do: after a modification, the next step of a cursor that has neither
stopped nor failed yet fails. -/
def FailsFast (D : Domain) : Prop :=
  ∀ (s : Iteration D.Elem) (actions : List Action), (s.step .start).1.isModifiedBy actions = true →
    (∀ answer ∈ (s.step .start).1.answers s.cursors.length actions, answer.isOk = true) →
    (((s.step .start).1.run actions).step (.next s.cursors.length)).2 = some (.error .staleCursor)

/-- A cursor over an empty builder stops after a term is set. -/
theorem not_failsFast : ¬ FailsFast .integers := by
  intro h
  have hstale := h ⟨{ nvars := 2 }, []⟩ [.request (.set [1, 0] (some (.integer 1)))] rfl
    (by simp [answers, isStepOf])
  have hstops : some (Except.error Failure.exhausted) =
      (some (.error .staleCursor) : Option (Except Failure (Monomial × Int))) := hstale
  cases hstops

end Iteration

end PolyIdeal
