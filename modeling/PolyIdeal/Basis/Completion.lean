import PolyIdeal.Monomial.Dickson
import PolyIdeal.Traced

/-!
# Completion under a join

A list is completed by joining its pairs in order and appending what a join gives; pairs with a new
element are joined in their turn. By Dickson's lemma this ends, when only elements with a monomial
can be joined and the monomial of a new element is divisible by none before it.
-/

namespace PolyIdeal

namespace Completion

variable {ε P : Type}

def pairBefore (p q : Nat × Nat) : Bool :=
  p.1 < q.1 || (p.1 == q.1 && p.2 ≤ q.2)

/-- The pairs of a new element at place `n` with all before it. -/
def pairsWith (n : Nat) : List (Nat × Nat) :=
  (List.range n).map fun i => (i, n)

def monomials (monomial : P → Option Monomial) (basis : List P) : List Monomial :=
  basis.filterMap monomial

/-- Whether both elements of a pair can be joined. -/
def joinable (monomial : P → Option Monomial) (basis : List P) (p : Nat × Nat) : Bool :=
  (basis[p.1]?.bind monomial).isSome && (basis[p.2]?.bind monomial).isSome

/-- Whether `r`, the join of a pair, is new: none before it divides its monomial, or it has none but
the pair could be joined. -/
def advances (monomial : P → Option Monomial) (basis : List P) (p : Nat × Nat) (r : P) : Bool :=
  match monomial r with
  | some m => (monomials monomial basis).all fun x =>
      x.length == m.length && !Monomial.divides x m
  | none => joinable monomial basis p

def joinableCount (monomial : P → Option Monomial) (basis : List P) (pending : List (Nat × Nat)) :
    Nat :=
  pending.countP (joinable monomial basis)

theorem extends_monomials {monomial : P → Option Monomial} {basis : List P} {p : Nat × Nat} {r : P}
    {m : Monomial} (hm : monomial r = some m) (h : advances monomial basis p r = true) :
    Monomial.Extends (monomials monomial (basis ++ [r])) (monomials monomial basis) := by
  refine ⟨m, by simp [monomials, hm], fun x hx => ?_⟩
  simp only [advances, hm, List.all_eq_true, Bool.and_eq_true, beq_iff_eq,
    Bool.not_eq_true'] at h
  exact h x hx

theorem joinable_append {monomial : P → Option Monomial} {basis : List P} {r : P}
    (hm : monomial r = none) (p : Nat × Nat) :
    joinable monomial (basis ++ [r]) p = joinable monomial basis p := by
  have go (i : Nat) : (basis ++ [r])[i]?.bind monomial = basis[i]?.bind monomial := by
    rw [List.getElem?_append]
    split
    · rfl
    · rename_i h
      have : basis[i]? = none := List.getElem?_eq_none (by omega)
      rw [this]
      rcases Nat.lt_or_ge (i - basis.length) 1 with h' | h'
      · simp [show i - basis.length = 0 by omega, hm]
      · rw [List.getElem?_eq_none (by simpa using h')]
  simp [joinable, go]

theorem joinableCount_append {monomial : P → Option Monomial} {basis : List P} {r : P}
    (hm : monomial r = none) {p : Nat × Nat} (hp : joinable monomial basis p = true)
    (rest : List (Nat × Nat)) :
    joinableCount monomial (basis ++ [r])
        (rest.merge (pairsWith basis.length) pairBefore) <
      joinableCount monomial basis (p :: rest) := by
  have hnew : (pairsWith basis.length).countP (joinable monomial basis) = 0 := by
    rw [List.countP_eq_zero]
    intro q hq
    simp only [pairsWith, List.mem_map] at hq
    obtain ⟨i, _, rfl⟩ := hq
    simp [joinable]
  have hperm : (rest.merge (pairsWith basis.length) pairBefore).Perm
      (rest ++ pairsWith basis.length) := List.merge_perm_append _
  rw [joinableCount, funext (joinable_append hm), hperm.countP_eq, List.countP_append, hnew,
    joinableCount, List.countP_cons_of_pos hp]
  exact Nat.lt_succ_self _

/-- Completes a list whose pairs in `pending` are still to be joined. -/
def complete (monomial : P → Option Monomial) (join : List P → Nat × Nat → P → P →
    Traced ε (Option P)) (basis : List P) (pending : List (Nat × Nat)) : Traced ε (List P) :=
  match pending with
  | [] => pure basis
  | p :: rest =>
    match basis[p.1]?, basis[p.2]? with
    | some f, some g =>
      let t := join basis p f g
      match t.result with
      | .error e => ⟨t.events, .error e⟩
      | .ok none =>
        let t' := complete monomial join basis rest
        ⟨t.events ++ t'.events, t'.result⟩
      | .ok (some r) =>
        if _h : advances monomial basis p r then
          let t' := complete monomial join (basis ++ [r])
            (rest.merge (pairsWith basis.length) pairBefore)
          ⟨t.events ++ t'.events, t'.result⟩
        else ⟨t.events, .ok (basis ++ [r])⟩
    | _, _ => complete monomial join basis rest
  termination_by
    (Monomial.extends_wf.wrap (monomials monomial basis), joinableCount monomial basis pending,
      pending.length)
  decreasing_by
    · apply Prod.Lex.right
      rcases Nat.lt_or_eq_of_le (show joinableCount monomial basis rest ≤
          joinableCount monomial basis (p :: rest) by
        simp [joinableCount, List.countP_cons]) with h | h
      · exact Prod.Lex.left _ _ h
      · rw [h]; exact Prod.Lex.right _ (by simp)
    · cases hm : monomial r with
      | some m => exact Prod.Lex.left _ _ (extends_monomials hm _h)
      | none =>
        have hp : joinable monomial basis p = true := by simpa [advances, hm] using _h
        have : monomials monomial (basis ++ [r]) = monomials monomial basis := by
          simp [monomials, hm]
        rw [this]
        exact Prod.Lex.right _ (Prod.Lex.left _ _ (joinableCount_append hm hp rest))
    · apply Prod.Lex.right
      rcases Nat.lt_or_eq_of_le (show joinableCount monomial basis rest ≤
          joinableCount monomial basis (p :: rest) by
        simp [joinableCount, List.countP_cons]) with h | h
      · exact Prod.Lex.left _ _ h
      · rw [h]; exact Prod.Lex.right _ (by simp)

end Completion

end PolyIdeal
