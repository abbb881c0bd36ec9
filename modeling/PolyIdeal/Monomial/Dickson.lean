import PolyIdeal.Monomial.Basic

/-!
# Dickson's lemma

A list of monomials cannot be extended forever by monomials that no earlier one divides. The main
statement is `extends_wf`.
-/

namespace PolyIdeal.Monomial

/-- The list `l'` is `l` with one more monomial, of the same arity, that no member of `l`
divides. -/
def Extends (l' l : List Monomial) : Prop :=
  ∃ m, l' = l ++ [m] ∧ ∀ x ∈ l, x.length = m.length ∧ divides x m = false

private theorem exists_min_from (f : Nat → Nat) (s : Nat) :
    ∃ k, s ≤ k ∧ ∀ j, s ≤ j → f k ≤ f j := by
  have go (n : Nat) : ∀ k, s ≤ k → f k ≤ n → ∃ k, s ≤ k ∧ ∀ j, s ≤ j → f k ≤ f j := by
    induction n with
    | zero => exact fun k hk h => ⟨k, hk, fun j _ => by omega⟩
    | succ n ih =>
      intro k hk h
      by_cases hj : ∃ j, s ≤ j ∧ f j ≤ n
      · obtain ⟨j, hj, h'⟩ := hj
        exact ih j hj h'
      · refine ⟨k, hk, fun j hj' => ?_⟩
        have : ¬ f j ≤ n := fun h => hj ⟨j, hj', h⟩
        omega
  exact go (f s) s (Nat.le_refl s) (Nat.le_refl _)

private theorem exists_monotone (f : Nat → Nat) :
    ∃ g : Nat → Nat, (∀ i j, i < j → g i < g j) ∧ ∀ i j, i ≤ j → f (g i) ≤ f (g j) := by
  have ⟨least, hle, hmin⟩ : ∃ least : Nat → Nat, (∀ s, s ≤ least s) ∧
      ∀ s j, s ≤ j → f (least s) ≤ f j :=
    ⟨fun s => (exists_min_from f s).choose, fun s => (exists_min_from f s).choose_spec.1,
      fun s => (exists_min_from f s).choose_spec.2⟩
  let g : Nat → Nat := fun i => Nat.rec (least 0) (fun _ p => least (p + 1)) i
  have step (i : Nat) : g i < g (i + 1) := hle (g i + 1)
  have mono (i d : Nat) : g i ≤ g (i + d) := by
    induction d with
    | zero => exact Nat.le_refl _
    | succ d ih => exact Nat.le_of_lt (Nat.lt_of_le_of_lt ih (step (i + d)))
  have start (i : Nat) : ∃ s, s ≤ g i ∧ g i = least s := by
    cases i with
    | zero => exact ⟨0, Nat.zero_le _, rfl⟩
    | succ i => exact ⟨g i + 1, step i, rfl⟩
  refine ⟨g, fun i j h => ?_, fun i j h => ?_⟩
  · have := step i
    have := mono (i + 1) (j - (i + 1))
    rw [show i + 1 + (j - (i + 1)) = j by omega] at this
    omega
  · obtain ⟨s, hs, e⟩ := start i
    have := mono i (j - i)
    rw [show i + (j - i) = j by omega] at this
    rw [e]
    exact hmin s _ (by omega)

/-- Every sequence of monomials of one arity has a subsequence in which each divides all later. -/
private theorem exists_chain (n : Nat) : ∀ f : Nat → Monomial, (∀ i, (f i).length = n) →
    ∃ g : Nat → Nat, (∀ i j, i < j → g i < g j) ∧
      ∀ i j, i ≤ j → divides (f (g i)) (f (g j)) = true := by
  induction n with
  | zero =>
    intro f hf
    refine ⟨id, fun _ _ h => h, fun i j _ => ?_⟩
    rw [List.length_eq_zero_iff.mp (hf (id i))]
    rfl
  | succ n ih =>
    intro f hf
    obtain ⟨g, hg, hmono⟩ := exists_monotone fun i => (f i).headD 0
    obtain ⟨g', hg', hdiv⟩ := ih (fun i => (f (g i)).tail) fun i => by simp [hf]
    refine ⟨fun i => g (g' i), fun i j h => hg _ _ (hg' _ _ h), fun i j h => ?_⟩
    have hle : g' i ≤ g' j := by
      rcases Nat.lt_or_eq_of_le h with h | rfl
      · exact Nat.le_of_lt (hg' _ _ h)
      · exact Nat.le_refl _
    have h₁ := hmono _ _ hle
    have h₂ := hdiv i j h
    have l₁ := hf (g (g' i))
    have l₂ := hf (g (g' j))
    cases e₁ : f (g (g' i)) with
    | nil => simp [e₁] at l₁
    | cons a as =>
      cases e₂ : f (g (g' j)) with
      | nil => simp [e₂] at l₂
      | cons b bs => simp_all [divides]

private theorem exists_sequence {l : List Monomial} (h : ¬ Acc Extends l) :
    ∃ s : Nat → List Monomial, ∀ i, Extends (s (i + 1)) (s i) := by
  have next (p : { l // ¬ Acc Extends l }) : ∃ q : { l // ¬ Acc Extends l }, Extends q.1 p.1 := by
    apply Classical.byContradiction
    intro hq
    refine p.2 ⟨_, fun y hy => ?_⟩
    exact Classical.byContradiction fun hy' => hq ⟨⟨y, hy'⟩, hy⟩
  let s : Nat → { l // ¬ Acc Extends l } := fun i => Nat.rec ⟨l, h⟩ (fun _ p => (next p).choose) i
  exact ⟨fun i => (s i).1, fun i => (next (s i)).choose_spec⟩

theorem extends_wf : WellFounded Extends := by
  refine ⟨fun l => Classical.byContradiction fun h => ?_⟩
  obtain ⟨s, hs⟩ := exists_sequence h
  have ⟨m, hm, hnew⟩ : ∃ m : Nat → Monomial, (∀ i, s (i + 1) = s i ++ [m i]) ∧
      ∀ i, ∀ x ∈ s i, x.length = (m i).length ∧ divides x (m i) = false :=
    ⟨fun i => (hs i).choose, fun i => (hs i).choose_spec.1, fun i => (hs i).choose_spec.2⟩
  have mem (i d : Nat) : m i ∈ s (i + d + 1) := by
    induction d with
    | zero => simp [hm]
    | succ d ih => rw [show i + (d + 1) + 1 = i + d + 1 + 1 by omega, hm]; simp [ih]
  have mem' (i j : Nat) (h : i < j) : m i ∈ s j := by
    have := mem i (j - (i + 1))
    rwa [show i + (j - (i + 1)) + 1 = j by omega] at this
  have len (i : Nat) : (m i).length = (m 0).length := by
    cases i with
    | zero => rfl
    | succ i => exact (hnew _ _ (mem' 0 (i + 1) (by omega))).1.symm
  obtain ⟨g, hg, hdiv⟩ := exists_chain _ m len
  have := (hnew _ _ (mem' (g 0) (g 1) (hg 0 1 (by omega)))).2
  rw [hdiv 0 1 (by omega)] at this
  cases this

end PolyIdeal.Monomial
