import PolyIdeal.Order.Induced
import PolyIdeal.Proofs.Order.Comparison
import PolyIdeal.Proofs.Polynomial.Denotation
import PolyIdeal.Proofs.Traced

/-!
# The induced order as a lexicographic one

Polynomials are compared as the lists of ranks of their monomials are, from the highest monomial
down, except where the one list runs out before it differs from the other. The exceptions are
closed under betweenness: what separates two lists has to meet one of them first.
-/

namespace PolyIdeal

section Prefixes

variable {α : Type}

def ProperPrefix (l₁ l₂ : List α) : Prop :=
  l₁ <+: l₂ ∧ l₁ ≠ l₂

/-- Both lists have elements, and one of them runs out before they differ. -/
def RunsOut (l₁ l₂ : List α) : Prop :=
  l₁ ≠ [] ∧ l₂ ≠ [] ∧ (ProperPrefix l₁ l₂ ∨ ProperPrefix l₂ l₁)

instance [DecidableEq α] : DecidableRel (RunsOut (α := α)) :=
  fun _ _ => inferInstanceAs (Decidable (_ ∧ _ ∧ (_ ∧ _ ∨ _ ∧ _)))

private theorem ProperPrefix.length_ne {l₁ l₂ : List α} (h : ProperPrefix l₁ l₂) :
    l₁.length ≠ l₂.length :=
  fun hlen => h.2 (h.1.eq_of_length hlen)

theorem RunsOut.symm {l₁ l₂ : List α} (h : RunsOut l₁ l₂) : RunsOut l₂ l₁ :=
  ⟨h.2.1, h.1, h.2.2.symm⟩

theorem not_runsOut_self (l : List α) : ¬ RunsOut l l :=
  fun h => h.2.2.elim (fun hp => hp.2 rfl) fun hp => hp.2 rfl

variable [LinearOrder α]

theorem le_of_isPrefix {l₁ l₂ : List α} (h : l₁ <+: l₂) : l₁ ≤ l₂ :=
  not_lt.mp h.le

private theorem isPrefix_of_between {l₁ l₂ l₃ : List α} (h : l₁ <+: l₃) (h₁₂ : l₁ ≤ l₂)
    (h₂₃ : l₂ ≤ l₃) : l₁ <+: l₂ := by
  induction l₁ generalizing l₂ l₃ with
  | nil => exact List.nil_prefix
  | cons a l₁ ih =>
    cases l₂ with
    | nil => exact absurd (List.nil_lt_cons a l₁) (not_lt.mpr h₁₂)
    | cons b l₂ =>
      cases l₃ with
      | nil => exact absurd h (by simp)
      | cons c l₃ =>
        obtain ⟨rfl, htail⟩ := List.cons_prefix_cons.mp h
        rw [← not_lt, List.cons_lt_cons_iff, not_or, not_lt, not_and, not_lt] at h₁₂ h₂₃
        obtain rfl := le_antisymm h₁₂.1 h₂₃.1
        exact List.cons_prefix_cons.mpr ⟨rfl, ih htail (h₁₂.2 rfl) (h₂₃.2 rfl)⟩

theorem not_runsOut_of_between {l₁ l₂ l₃ : List α} (h₁₂ : l₁ ≤ l₂) (h₂₃ : l₂ ≤ l₃)
    (hne₁₂ : ¬ RunsOut l₁ l₂) (hne₂₃ : ¬ RunsOut l₂ l₃) : ¬ RunsOut l₁ l₃ := by
  rintro ⟨hnil₁, hnil₃, hbegins⟩
  have hcontinued : l₁ <+: l₃ := by
    rcases hbegins with h | h
    · exact h.1
    · exact absurd (le_antisymm (le_of_isPrefix h.1) (h₁₂.trans h₂₃)) h.2
  have hmiddle : l₁ <+: l₂ := isPrefix_of_between hcontinued h₁₂ h₂₃
  have hnil₂ : l₂ ≠ [] := fun hnil => hnil₁ (List.prefix_nil.mp (hnil ▸ hmiddle))
  -- The middle list continues the first one, so it is the first one.
  have heq : l₁ = l₂ := by
    by_contra hne
    exact hne₁₂ ⟨hnil₁, hnil₂, .inl ⟨hmiddle, hne⟩⟩
  subst heq
  exact hne₂₃ ⟨hnil₁, hnil₃, hbegins⟩

private theorem compares_cons_self (a : α) {l₁ l₂ : List α} {c : Ordering} :
    c.Compares (a :: l₁) (a :: l₂) ↔ c.Compares l₁ l₂ := by
  have hcons (l l' : List α) : a :: l < a :: l' ↔ l < l' := by
    rw [List.cons_lt_cons_iff]
    exact ⟨fun h => h.elim (fun h => absurd h (lt_irrefl a)) And.right, fun h => .inr ⟨rfl, h⟩⟩
  cases c with
  | lt => exact hcons l₁ l₂
  | eq => exact List.cons_inj_right a
  | gt => exact hcons l₂ l₁

end Prefixes

namespace Order

open Monomial

variable {n : ℕ} {order : Order} (h : order.accepts n = true)

private theorem compare_compares (order : Order) (m₁ m₂ : Monomial) :
    (order.compare m₁ m₂).Compares (order.rank m₁) (order.rank m₂) := by
  rw [compare]
  split
  · assumption
  · rename_i hnlt
    split
    · assumption
    · rename_i hngt
      exact le_antisymm (not_lt.mp hngt) (not_lt.mp hnlt)

section Lists

variable {l₁ l₂ : List Monomial} (h₁ : ∀ m ∈ l₁, m.length = n) (h₂ : ∀ m ∈ l₂, m.length = n)

include h h₁ h₂

private theorem map_rank_inj : l₁.map order.rank = l₂.map order.rank ↔ l₁ = l₂ := by
  refine ⟨fun heq => ?_, fun heq => congrArg _ heq⟩
  induction l₁ generalizing l₂ with
  | nil => exact (List.map_eq_nil_iff.mp heq.symm).symm
  | cons m₁ l₁ ih =>
    cases l₂ with
    | nil => cases heq
    | cons m₂ l₂ =>
      obtain ⟨hhead, htail⟩ := List.cons.inj heq
      rw [rank_injective h (h₁ m₁ List.mem_cons_self) (h₂ m₂ List.mem_cons_self) hhead,
        ih (fun m hm => h₁ m (List.mem_cons_of_mem m₁ hm))
          (fun m hm => h₂ m (List.mem_cons_of_mem m₂ hm)) htail]

private theorem properPrefix_map_rank :
    ProperPrefix (l₁.map order.rank) (l₂.map order.rank) ↔ ProperPrefix l₁ l₂ := by
  rw [ProperPrefix, ProperPrefix, Ne, map_rank_inj h h₁ h₂]
  refine and_congr_left fun _ => ⟨fun hbegins => ?_, fun hbegins => hbegins.map _⟩
  obtain ⟨l, hl, heq⟩ := List.prefix_map_iff.mp hbegins
  rwa [(map_rank_inj h h₁ fun m hm => h₂ m (hl.subset hm)).mp heq]

theorem runsOut_map_rank :
    RunsOut (l₁.map order.rank) (l₂.map order.rank) ↔ RunsOut l₁ l₂ := by
  rw [RunsOut, RunsOut, properPrefix_map_rank h h₁ h₂, properPrefix_map_rank h h₂ h₁, Ne, Ne,
    List.map_eq_nil_iff, List.map_eq_nil_iff]

/-- Lists are found equal as far as both go, or compared as their ranks are. -/
private theorem compareLists_ok : ∃ c, order.compareLists l₁ l₂ = .ok c ∧
    (c = .eq ↔ l₁ <+: l₂ ∨ l₂ <+: l₁) ∧
    (c ≠ .eq → c.Compares (l₁.map order.rank) (l₂.map order.rank)) := by
  induction l₁ generalizing l₂ with
  | nil => exact ⟨.eq, rfl, iff_of_true rfl (.inl List.nil_prefix), fun hne => absurd rfl hne⟩
  | cons m₁ l₁ ih =>
    cases l₂ with
    | nil => exact ⟨.eq, rfl, iff_of_true rfl (.inr List.nil_prefix), fun hne => absurd rfl hne⟩
    | cons m₂ l₂ =>
      have hm₁ : m₁.length = n := h₁ m₁ List.mem_cons_self
      have hm₂ : m₂.length = n := h₂ m₂ List.mem_cons_self
      have harity : checkArity m₁.toInts m₂.toInts = .ok () := by
        rw [checkArity, if_pos (by simp [hm₁, hm₂])]
      have hheads := order.compare_compares m₁ m₂
      have hdiffer (hne : m₁ ≠ m₂) : ¬ (m₁ :: l₁ <+: m₂ :: l₂ ∨ m₂ :: l₂ <+: m₁ :: l₁) := by
        rw [List.cons_prefix_cons, List.cons_prefix_cons]
        rintro (⟨heq, -⟩ | ⟨heq, -⟩)
        · exact hne heq
        · exact hne heq.symm
      rw [compareLists, harity]
      cases hc : order.compare m₁ m₂ with
      | eq =>
        obtain rfl := rank_injective h hm₁ hm₂ (hheads.eq_eq.mp hc)
        simp only [List.cons_prefix_cons, true_and, List.map_cons, compares_cons_self]
        exact ih (fun m hm => h₁ m (List.mem_cons_of_mem m₁ hm))
          fun m hm => h₂ m (List.mem_cons_of_mem m₁ hm)
      | lt =>
        have hlt : order.rank m₁ < order.rank m₂ := hheads.eq_lt.mp hc
        refine ⟨.lt, rfl, iff_of_false (by simp) (hdiffer ?_), fun _ => ?_⟩
        · exact fun heq => hlt.ne (congrArg _ heq)
        · exact List.cons_lt_cons_iff.mpr (.inl hlt)
      | gt =>
        have hgt : order.rank m₂ < order.rank m₁ := hheads.eq_gt.mp hc
        refine ⟨.gt, rfl, iff_of_false (by simp) (hdiffer ?_), fun _ => ?_⟩
        · exact fun heq => hgt.ne (congrArg _ heq.symm)
        · exact List.cons_lt_cons_iff.mpr (.inl hgt)

variable (text₁ text₂ : String)

private theorem compareDescending_error (hruns : RunsOut l₁ l₂) :
    order.compareDescending l₁ l₂ text₁ text₂ =
      .error (.incomparable text₁ text₂ (l₁.map toInts) (l₂.map toInts)) := by
  obtain ⟨hnil₁, hnil₂, hbegins⟩ := hruns
  obtain ⟨c, hlists, hc, -⟩ := compareLists_ok h h₁ h₂
  obtain rfl := hc.mpr (hbegins.imp And.left And.left)
  have hlen : l₁.length ≠ l₂.length := by
    rcases hbegins with hbegins | hbegins
    · exact hbegins.length_ne
    · exact hbegins.length_ne.symm
  cases l₁ with
  | nil => exact absurd rfl hnil₁
  | cons m₁ l₁ =>
    cases l₂ with
    | nil => exact absurd rfl hnil₂
    | cons m₂ l₂ =>
      simp only [compareDescending, hlists]
      exact if_neg hlen

private theorem compareDescending_ok (hruns : ¬ RunsOut l₁ l₂) :
    ∃ c, order.compareDescending l₁ l₂ text₁ text₂ = .ok c ∧
      c.Compares (l₁.map order.rank) (l₂.map order.rank) := by
  cases l₁ with
  | nil =>
    cases l₂ with
    | nil => exact ⟨.eq, rfl, rfl⟩
    | cons m₂ l₂ => exact ⟨.lt, rfl, List.nil_lt_cons _ _⟩
  | cons m₁ l₁ =>
    cases l₂ with
    | nil => exact ⟨.gt, rfl, List.nil_lt_cons _ _⟩
    | cons m₂ l₂ =>
      obtain ⟨c, hlists, hc, hcompares⟩ := compareLists_ok h h₁ h₂
      simp only [compareDescending, hlists]
      by_cases heq : m₁ :: l₁ = m₂ :: l₂
      · obtain rfl := hc.mpr (.inl (heq ▸ List.prefix_rfl))
        exact ⟨.eq, if_pos (congrArg List.length heq), congrArg (List.map order.rank) heq⟩
      · have hne : c ≠ .eq := by
          intro hceq
          refine hruns ⟨List.cons_ne_nil m₁ l₁, List.cons_ne_nil m₂ l₂, ?_⟩
          exact (hc.mp hceq).imp (fun hbegins => ⟨hbegins, heq⟩)
            fun hbegins => ⟨hbegins, Ne.symm heq⟩
        refine ⟨c, ?_, hcompares hne⟩
        cases c with
        | eq => exact absurd rfl hne
        | lt => rfl
        | gt => rfl

end Lists

section Polynomials

variable {R S : Type} [Zero R] [DecidableEq R] [Zero S] [DecidableEq S]

def ranks (order : Order) (p : Polynomial R) : List (List ℕ) :=
  (order.descending p.monomials).map order.rank

variable {p : Polynomial R} {q : Polynomial S} (hp : p.nvars = n) (hq : q.nvars = n)

include hp in
theorem length_of_mem_descending : ∀ m ∈ order.descending p.monomials, m.length = n := fun _ hm =>
  (Polynomial.length_of_mem_monomials ((order.descending_perm _).mem_iff.mp hm)).trans hp

include h hp hq in
theorem ranks_eq_iff :
    order.ranks p = order.ranks q ↔ ∀ m, m ∈ p.monomials ↔ m ∈ q.monomials := by
  rw [ranks, ranks, map_rank_inj h (length_of_mem_descending hp) (length_of_mem_descending hq)]
  constructor
  · intro heq m
    rw [← (order.descending_perm p.monomials).mem_iff, heq,
      (order.descending_perm q.monomials).mem_iff]
  · intro hmem
    have hperm := (List.perm_ext_iff_of_nodup p.nodup_monomials q.nodup_monomials).mpr hmem
    exact descending_unique h ((order.descending_perm q.monomials).trans hperm.symm)
      (length_of_mem_descending hq) (order.descending_pairwise q.monomials)

theorem descending_eq_nil_iff : order.descending p.monomials = [] ↔ p.isZero = true := by
  rw [← Polynomial.monomials_eq_nil_iff]
  constructor
  · intro hnil
    have hperm := order.descending_perm p.monomials
    rw [hnil] at hperm
    exact hperm.nil_eq.symm
  · intro hnil
    exact List.perm_nil.mp ((order.descending_perm p.monomials).trans (.of_eq hnil))

theorem runsOut_descending_iff :
    RunsOut (order.descending p.monomials) (order.descending q.monomials) ↔
      p.isZero = false ∧ q.isZero = false ∧
        (ProperPrefix (order.descending p.monomials) (order.descending q.monomials) ∨
          ProperPrefix (order.descending q.monomials) (order.descending p.monomials)) := by
  rw [RunsOut, Ne, Ne, descending_eq_nil_iff, descending_eq_nil_iff, Bool.not_eq_true,
    Bool.not_eq_true]

include h hp in
private theorem descending?_ok :
    order.descending? p.monomials = .ok (order.descending p.monomials) := by
  have hchecks : p.monomials.forM (fun m => order.check m.toInts) = .ok () :=
    forM_ok fun _ hm => check_toInts h ((Polynomial.length_of_mem_monomials hm).trans hp)
  rw [descending?, hchecks]
  rfl

variable [One R] [Coefficient R] [One S] [Coefficient S]

include h hp hq

theorem comparePolynomials_error
    (hruns : RunsOut (order.descending p.monomials) (order.descending q.monomials)) :
    order.comparePolynomials p q = .error (.incomparable p.text q.text
      ((order.descending p.monomials).map toInts) ((order.descending q.monomials).map toInts)) := by
  rw [comparePolynomials, descending?_ok h hp, descending?_ok h hq]
  exact compareDescending_error h (length_of_mem_descending hp) (length_of_mem_descending hq) _ _
    hruns

theorem comparePolynomials_ok
    (hruns : ¬ RunsOut (order.descending p.monomials) (order.descending q.monomials)) :
    ∃ c, order.comparePolynomials p q = .ok c ∧ c.Compares (order.ranks p) (order.ranks q) := by
  rw [comparePolynomials, descending?_ok h hp, descending?_ok h hq]
  exact compareDescending_ok h (length_of_mem_descending hp) (length_of_mem_descending hq) _ _ hruns

theorem comparePolynomials_eq_error_iff :
    order.comparePolynomials p q = .error (.incomparable p.text q.text
        ((order.descending p.monomials).map toInts) ((order.descending q.monomials).map toInts)) ↔
      RunsOut (order.descending p.monomials) (order.descending q.monomials) := by
  refine ⟨fun herror => ?_, comparePolynomials_error h hp hq⟩
  by_contra hruns
  obtain ⟨c, hc, -⟩ := comparePolynomials_ok h hp hq hruns
  rw [hc] at herror
  cases herror

/-- The comparison says what the ranks say, exactly where no list runs out. -/
theorem comparePolynomials_eq_ok_iff {c : Ordering} : order.comparePolynomials p q = .ok c ↔
    ¬ RunsOut (order.descending p.monomials) (order.descending q.monomials) ∧
      c.Compares (order.ranks p) (order.ranks q) := by
  by_cases hruns : RunsOut (order.descending p.monomials) (order.descending q.monomials)
  · rw [comparePolynomials_error h hp hq hruns]
    exact ⟨fun h => (nomatch h), fun h => absurd hruns h.1⟩
  · obtain ⟨c', hc', hcompares⟩ := comparePolynomials_ok h hp hq hruns
    rw [hc', Except.ok.injEq, and_iff_right hruns]
    exact ⟨fun heq => heq ▸ hcompares, hcompares.inj⟩

end Polynomials

end Order

end PolyIdeal
