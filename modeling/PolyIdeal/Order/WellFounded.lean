import PolyIdeal.Order.Basic

/-!
# Descending ranks

Lists compared first by length and then lexicographically cannot descend forever if their entries
cannot. The same holds for strictly descending lists of any length, the form in which the
monomials of a polynomial are listed, when they are compared lexicographically.
-/

namespace PolyIdeal

variable {α : Type}

/-- Shorter, or of the same length and lexicographically smaller. -/
def ShortLex (r : α → α → Prop) (a b : List α) : Prop :=
  a.length < b.length ∨ (a.length = b.length ∧ List.Lex r a b)

private theorem acc_sameLength {r : α → α → Prop} (hr : WellFounded r) (n : Nat) :
    ∀ a : List α, a.length = n → Acc (fun a b => a.length = b.length ∧ List.Lex r a b) a := by
  induction n with
  | zero =>
    intro a ha
    obtain rfl := List.length_eq_zero_iff.mp ha
    exact ⟨_, fun b hb => nomatch hb.2⟩
  | succ n ih =>
    intro a ha
    match a, ha with
    | x :: xs, ha =>
      induction x using hr.induction generalizing xs with
      | _ x ihx =>
        have hxs : xs.length = n := by simpa using ha
        induction ih xs hxs with
        | _ xs _ ihxs =>
          refine ⟨_, fun b hb => ?_⟩
          obtain ⟨hl, hlex⟩ := hb
          cases hlex with
          | nil => simp at hl
          | rel h => exact ihx _ h _ (by rw [hl]; exact ha)
          | cons h =>
            have hl' := Nat.succ.inj hl
            exact ihxs _ ⟨hl', h⟩ (by rw [hl]; exact ha) (by rw [hl']; exact hxs)

theorem shortLex_wf {r : α → α → Prop} (hr : WellFounded r) : WellFounded (ShortLex r) := by
  have go (n : Nat) : ∀ a : List α, a.length = n → Acc (ShortLex r) a := by
    induction n using Nat.strongRecOn with
    | _ n ih =>
      intro a ha
      induction acc_sameLength hr n a ha with
      | _ a _ iha =>
        refine ⟨_, fun b hb => ?_⟩
        rcases hb with h | h
        · exact ih _ (by omega) b rfl
        · exact iha b h (by omega)
  exact ⟨fun a => go _ a rfl⟩

/-- A strictly descending list below another list in lexicographic order. -/
def DescendsTo (r : α → α → Prop) (a b : List α) : Prop :=
  a.Pairwise (fun x y => r y x) ∧ List.Lex r a b

private theorem acc_descending {r : α → α → Prop} (hr : WellFounded r) (x : α) :
    ∀ xs : List α, (x :: xs).Pairwise (fun x y => r y x) → Acc (DescendsTo r) (x :: xs) := by
  induction x using hr.induction with
  | _ x ih =>
    have tail (xs : List α) (h : (x :: xs).Pairwise (fun x y => r y x)) :
        Acc (DescendsTo r) xs := by
      cases xs with
      | nil => exact ⟨_, fun b hb => nomatch hb.2⟩
      | cons y ys =>
        rw [List.pairwise_cons] at h
        exact ih y (h.1 y (by simp)) ys h.2
    intro xs h
    induction tail xs h with
    | _ xs _ ihxs =>
      refine ⟨_, fun b hb => ?_⟩
      obtain ⟨hd, hlex⟩ := hb
      cases hlex with
      | nil => exact ⟨_, fun b hb => nomatch hb.2⟩
      | rel hr' => exact ih _ hr' _ hd
      | cons hl => exact ihxs _ ⟨(List.pairwise_cons.mp hd).2, hl⟩ hd

theorem descendsTo_wf {r : α → α → Prop} (hr : WellFounded r) : WellFounded (DescendsTo r) := by
  refine ⟨fun a => ⟨_, fun b hb => ?_⟩⟩
  cases b with
  | nil => exact ⟨_, fun c hc => nomatch hc.2⟩
  | cons x xs => exact acc_descending hr x xs hb.1

instance [DecidableEq α] (r : α → α → Prop) [DecidableRel r] : DecidableRel (ShortLex r) :=
  fun _ _ => inferInstanceAs (Decidable (_ ∨ _))

instance [DecidableEq α] (r : α → α → Prop) [DecidableRel r] : DecidableRel (DescendsTo r) :=
  fun _ _ => inferInstanceAs (Decidable (_ ∧ _))

namespace Order

/-- Whether one monomial has a lower rank than another. -/
def Below (order : Order) (m₁ m₂ : Monomial) : Prop :=
  ShortLex (· < ·) (order.rank m₁) (order.rank m₂)

instance (order : Order) : DecidableRel order.Below :=
  fun _ _ => inferInstanceAs (Decidable (ShortLex _ _ _))

theorem below_wf (order : Order) : WellFounded order.Below :=
  InvImage.wf order.rank (shortLex_wf Nat.lt_wfRel.wf)

end Order

end PolyIdeal
