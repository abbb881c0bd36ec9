import Mathlib.Data.List.Forall2
import PolyIdeal.Proofs.Traced

/-!
# Computations with the same outcome

Two computations on related data that fail for the same reason or end with related results. If the
parts of two computations are related in this way, so are the whole ones. What is noted on the way
is not compared.
-/

namespace PolyIdeal

/-- The same failure, or results that are related. -/
inductive SameOutcome {α β : Type} (rel : α → β → Prop) :
    Except Failure α → Except Failure β → Prop
  | failure (e : Failure) : SameOutcome rel (.error e) (.error e)
  | success {a : α} {b : β} (h : rel a b) : SameOutcome rel (.ok a) (.ok b)

namespace SameOutcome

variable {α β γ δ : Type} {rel : α → β → Prop} {rel' : γ → δ → Prop}
  {x : Except Failure α} {y : Except Failure β}

theorem of_eq {x y : Except Failure α} (h : x = y) : SameOutcome Eq x y := by
  subst h
  cases x with
  | error e => exact .failure e
  | ok a => exact .success rfl

theorem eq_error {e : Failure} (h : SameOutcome rel (.error e) y) : y = .error e := by
  cases h with
  | failure e => rfl

theorem exists_of_ok {a : α} (h : SameOutcome rel (.ok a) y) : ∃ b, y = .ok b ∧ rel a b := by
  cases h with
  | success h => exact ⟨_, rfl, h⟩

theorem bind {f : α → Except Failure γ} {g : β → Except Failure δ} (h : SameOutcome rel x y)
    (hnext : ∀ a b, x = .ok a → rel a b → SameOutcome rel' (f a) (g b)) :
    SameOutcome rel' (x >>= f) (y >>= g) := by
  cases h with
  | failure e => exact .failure e
  | success h => exact hnext _ _ rfl h

private theorem map {f : α → γ} {g : β → δ} (h : SameOutcome rel x y)
    (hnext : ∀ a b, rel a b → rel' (f a) (g b)) : SameOutcome rel' (x.map f) (y.map g) := by
  cases h with
  | failure e => exact .failure e
  | success h => exact .success (hnext _ _ h)

theorem bind_same {x : Except Failure α} {f : α → Except Failure γ} {g : α → Except Failure δ}
    (hnext : ∀ a, x = .ok a → SameOutcome rel' (f a) (g a)) :
    SameOutcome rel' (x >>= f) (x >>= g) :=
  (of_eq rfl).bind fun a _ ha hab => hab ▸ hnext a ha

theorem map_same {x : Except Failure α} {f : α → γ} {g : α → δ}
    (hnext : ∀ a, rel' (f a) (g a)) : SameOutcome rel' (x.map f) (x.map g) :=
  (of_eq rfl).map fun a _ hab => hab ▸ hnext a

theorem mapM {l : List α} {l' : List β} {f : α → Except Failure γ} {g : β → Except Failure δ}
    (h : List.Forall₂ rel l l') (hf : ∀ a b, rel a b → SameOutcome rel' (f a) (g b)) :
    SameOutcome (List.Forall₂ rel') (l.mapM f) (l'.mapM g) := by
  induction h with
  | nil => exact .success .nil
  | cons hab _ ih =>
    rw [List.mapM_cons, List.mapM_cons]
    refine (hf _ _ hab).bind fun c d _ hcd => ?_
    exact ih.bind fun cs ds _ hrest => .success (.cons hcd hrest)

theorem cases_option {x : Except Failure (Option α)} {y : Except Failure (Option β)}
    (h : SameOutcome (Option.Rel rel) x y) :
    (∃ e, x = .error e ∧ y = .error e) ∨ (x = .ok none ∧ y = .ok none) ∨
      ∃ a b, x = .ok (some a) ∧ y = .ok (some b) ∧ rel a b := by
  cases h with
  | failure e => exact .inl ⟨e, rfl, rfl⟩
  | success h =>
    cases h with
    | none => exact .inr (.inl ⟨rfl, rfl⟩)
    | some h => exact .inr (.inr ⟨_, _, rfl, rfl, h⟩)

section Traced

variable {ε ε' : Type}

theorem result_bind {t : Traced ε α} {u : Traced ε' β} {f : α → Traced ε γ}
    {g : β → Traced ε' δ} (h : SameOutcome rel t.result u.result)
    (hnext : ∀ a b, t.result = .ok a → rel a b → SameOutcome rel' (f a).result (g b).result) :
    SameOutcome rel' (t >>= f).result (u >>= g).result := by
  generalize hx : t.result = x at h
  generalize hy : u.result = y at h
  cases h with
  | failure e =>
    rw [Traced.result_bind_error hx, Traced.result_bind_error hy]
    exact .failure e
  | success h =>
    rw [Traced.result_bind hx, Traced.result_bind hy]
    exact hnext _ _ hx h

theorem result_lift_bind {f : α → Traced ε γ} {g : β → Traced ε' δ} (h : SameOutcome rel x y)
    (hnext : ∀ a b, x = .ok a → rel a b → SameOutcome rel' (f a).result (g b).result) :
    SameOutcome rel' (Traced.lift x >>= f).result (Traced.lift y >>= g).result :=
  result_bind (t := Traced.lift x) (u := Traced.lift y) h hnext

end Traced

end SameOutcome

theorem map_eq_of_forall₂ {α β γ : Type} {rel : α → β → Prop} {l : List α} {l' : List β}
    {f : α → γ} {g : β → γ} (h : List.Forall₂ rel l l') (hf : ∀ a b, rel a b → f a = g b) :
    l.map f = l'.map g := by
  induction h with
  | nil => rfl
  | cons hab _ ih => rw [List.map_cons, List.map_cons, hf _ _ hab, ih]

/-- Lists that are related element by element are sorted in the same way, if elements are compared
with others as those related to them are. -/
theorem forall₂_mergeSort {α β : Type} {rel : α → β → Prop} {le : α → α → Bool}
    {le' : β → β → Bool} {l : List α} {l' : List β} (h : List.Forall₂ rel l l')
    (hle : ∀ a b a' b', rel a a' → rel b b' → le a b = le' a' b') :
    List.Forall₂ rel (l.mergeSort le) (l'.mergeSort le') := by
  obtain ⟨hlength, hrel⟩ := List.forall₂_iff_zip.mp h
  have hmem {p : α × β} (hp : p ∈ l.zip l') : rel p.1 p.2 := hrel hp
  have hfst : l.mergeSort le =
      ((l.zip l').mergeSort fun p q => le p.1 q.1).map Prod.fst := by
    rw [List.map_mergeSort (s := le) fun _ _ _ _ => rfl, List.map_fst_zip (Nat.le_of_eq hlength)]
  have hsnd : l'.mergeSort le' =
      ((l.zip l').mergeSort fun p q => le p.1 q.1).map Prod.snd := by
    have hsame (p : α × β) (hp : p ∈ l.zip l') (q : α × β) (hq : q ∈ l.zip l') :
        le p.1 q.1 = le' p.2 q.2 := hle _ _ _ _ (hmem hp) (hmem hq)
    rw [List.map_mergeSort (s := le') hsame, List.map_snd_zip (Nat.le_of_eq hlength.symm)]
  rw [hfst, hsnd, List.forall₂_map_left_iff, List.forall₂_map_right_iff, List.forall₂_same]
  intro p hp
  exact hmem (List.mem_mergeSort.mp hp)

end PolyIdeal
