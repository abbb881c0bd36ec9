import Mathlib.Data.List.Forall2
import PolyIdeal.Traced

/-!
# Results of traced computations

What is noted on the way has no influence on the result. A computation made of parts that succeed
succeeds, and one over a list fails as the first part that fails.
-/

namespace PolyIdeal

theorem mapM_eq_pure {m : Type → Type} [Monad m] [LawfulMonad m] {α β : Type} {f : α → m β}
    {g : α → β} {l : List α} (h : ∀ a ∈ l, f a = pure (g a)) : l.mapM f = pure (l.map g) := by
  induction l with
  | nil => rfl
  | cons a l ih =>
    have htail := ih fun b hb => h b (List.mem_cons_of_mem a hb)
    rw [List.mapM_cons, h a List.mem_cons_self, pure_bind, htail, pure_bind, List.map_cons]

theorem mapM_ok {ε α β : Type} {f : α → Except ε β} {g : α → β} {l : List α}
    (h : ∀ a ∈ l, f a = .ok (g a)) : l.mapM f = .ok (l.map g) :=
  mapM_eq_pure h

theorem exists_mapM_ok {ε α β : Type} {f : α → Except ε β} {l : List α}
    (h : ∀ a ∈ l, ∃ b, f a = .ok b) : ∃ bs, l.mapM f = .ok bs := by
  induction l with
  | nil => exact ⟨[], rfl⟩
  | cons a l ih =>
    obtain ⟨b, hb⟩ := h a List.mem_cons_self
    obtain ⟨bs, hbs⟩ := ih fun c hc => h c (List.mem_cons_of_mem a hc)
    refine ⟨b :: bs, ?_⟩
    rw [List.mapM_cons, hb, hbs]
    rfl

theorem forM_ok {ε α : Type} {f : α → Except ε PUnit} {l : List α}
    (h : ∀ a ∈ l, f a = .ok ⟨⟩) : l.forM f = .ok ⟨⟩ := by
  induction l with
  | nil => rfl
  | cons a l ih =>
    have htail := ih fun b hb => h b (List.mem_cons_of_mem a hb)
    change (f a >>= fun _ => l.forM f) = _
    rw [h a List.mem_cons_self]
    exact htail

theorem exists_of_bind_ok {ε α β : Type} {x : Except ε α} {f : α → Except ε β} {b : β}
    (h : (x >>= f) = .ok b) : ∃ a, x = .ok a ∧ f a = .ok b := by
  cases x with
  | error e => cases h
  | ok a => exact ⟨a, rfl, h⟩

section Runs

variable {ε α β : Type} {l l' : List α} {a : α} {e : ε}

theorem forall₂_of_mapM_ok {f : α → Except ε β} {bs : List β} (h : l.mapM f = .ok bs) :
    List.Forall₂ (fun a b => f a = .ok b) l bs := by
  induction l generalizing bs with
  | nil =>
    obtain rfl := Except.ok.inj h
    exact .nil
  | cons a l ih =>
    rw [List.mapM_cons] at h
    obtain ⟨b, hb, h⟩ := exists_of_bind_ok h
    obtain ⟨cs, hcs, h⟩ := exists_of_bind_ok h
    obtain rfl := Except.ok.inj h
    exact .cons hb (ih hcs)

theorem exists_mapM_forall₂ {f : α → Except ε β} {P : α → β → Prop}
    (h : ∀ a ∈ l, ∃ b, f a = .ok b ∧ P a b) : ∃ bs, l.mapM f = .ok bs ∧ List.Forall₂ P l bs := by
  obtain ⟨bs, hbs⟩ := exists_mapM_ok fun a ha => (h a ha).imp fun _ => And.left
  refine ⟨bs, hbs, ((List.forall₂_and_left l bs).mpr ⟨h, forall₂_of_mapM_ok hbs⟩).imp ?_⟩
  rintro a b ⟨⟨b', hb', hP⟩, hb⟩
  obtain rfl := Except.ok.inj (hb'.symm.trans hb)
  exact hP

theorem exists_of_mapM_ok {f : α → Except ε β} {bs : List β} (h : l.mapM f = .ok bs) :
    ∀ a ∈ l, ∃ b, f a = .ok b := by
  have hall := forall₂_of_mapM_ok h
  intro a ha
  obtain ⟨i, hi, rfl⟩ := List.getElem_of_mem ha
  exact ⟨_, hall.get hi (hall.length_eq ▸ hi)⟩

theorem mapM_error {f : α → Except ε β} (h : ∀ b ∈ l, ∃ c, f b = .ok c) (ha : f a = .error e) :
    (l ++ a :: l').mapM f = .error e := by
  obtain ⟨cs, hcs⟩ := exists_mapM_ok h
  rw [List.mapM_append, hcs, List.mapM_cons, ha]
  rfl

theorem forM_error {f : α → Except ε PUnit} (h : ∀ b ∈ l, f b = .ok ⟨⟩) (ha : f a = .error e) :
    (l ++ a :: l').forM f = .error e := by
  induction l with
  | nil =>
    change (f a >>= fun _ => l'.forM f) = _
    rw [ha]
    rfl
  | cons b l ih =>
    change (f b >>= fun _ => (l ++ a :: l').forM f) = _
    rw [h b List.mem_cons_self]
    exact ih fun c hc => h c (List.mem_cons_of_mem b hc)

theorem mapM_none {f : α → Option β} (h : f a = none) : (l ++ a :: l').mapM f = none := by
  rw [List.mapM_append, List.mapM_cons, h]
  cases l.mapM f <;> rfl

theorem length_of_mapM_some {f : α → Option β} {bs : List β} (h : l.mapM f = some bs) :
    bs.length = l.length := by
  induction l generalizing bs with
  | nil =>
    obtain rfl := Option.some.inj h
    rfl
  | cons b l ih =>
    rw [List.mapM_cons] at h
    obtain ⟨c, -, h⟩ := Option.bind_eq_some_iff.mp h
    obtain ⟨cs, hcs, h⟩ := Option.bind_eq_some_iff.mp h
    obtain rfl := Option.some.inj h
    exact congrArg Nat.succ (ih hcs)

end Runs

namespace Traced

variable {ε α β : Type}

@[simp] theorem result_pure (a : α) : (pure a : Traced ε α).result = .ok a := rfl

@[simp] theorem result_note (e : ε) (t : Traced ε α) : (note e t).result = t.result := rfl

theorem result_bind {t : Traced ε α} {a : α} (h : t.result = .ok a) (f : α → Traced ε β) :
    (t >>= f).result = (f a).result := by
  change (Traced.bind t f).result = _
  rw [Traced.bind, h]

theorem result_bind_error {t : Traced ε α} {e : Failure} (h : t.result = .error e)
    (f : α → Traced ε β) : (t >>= f).result = .error e := by
  change (Traced.bind t f).result = _
  rw [Traced.bind, h]

theorem exists_of_result_bind {t : Traced ε α} {f : α → Traced ε β} {b : β}
    (h : (t >>= f).result = .ok b) : ∃ a, t.result = .ok a ∧ (f a).result = .ok b := by
  cases ht : t.result with
  | error e =>
    rw [result_bind_error ht] at h
    cases h
  | ok a =>
    rw [result_bind ht] at h
    exact ⟨a, rfl, h⟩

theorem result_bind_congr {t t' : Traced ε α} (h : t.result = t'.result) (f : α → Traced ε β) :
    (t >>= f).result = (t' >>= f).result := by
  cases hresult : t'.result with
  | error e => rw [result_bind_error (h.trans hresult), result_bind_error hresult]
  | ok a => rw [result_bind (h.trans hresult), result_bind hresult]

theorem result_lift_bind {r : Except Failure α} {a : α} (h : r = .ok a) (f : α → Traced ε β) :
    (lift r >>= f).result = (f a).result :=
  result_bind h f

theorem result_lift_bind_error {r : Except Failure α} {e : Failure} (h : r = .error e)
    (f : α → Traced ε β) : (lift r >>= f).result = .error e :=
  result_bind_error h f

theorem result_note_bind {t : Traced ε α} {a : α} (h : t.result = .ok a) (e : ε)
    (f : α → Traced ε β) : (note e t >>= f).result = (f a).result :=
  result_bind (t := note e t) h f

end Traced

end PolyIdeal
