import Mathlib.Data.Nat.Notation
import Mathlib.Data.Set.Defs
import Mathlib.Order.Lattice
import PolyIdeal.Order.Insertion

/-!
# The outcome of sorting

A comparison that may fail need only answer on the elements of the list that is sorted. If it
answers there as keys from a total order compare, the sort succeeds, and no element of its result
is above a later one.
-/

namespace PolyIdeal.Insertion

variable {α κ : Type} [LinearOrder κ]

/-- The comparison answers on the given elements, as their keys compare. -/
def ComparesBy (lt : α → α → Except Failure Bool) (key : α → κ) (S : Set α) : Prop :=
  ∀ a ∈ S, ∀ b ∈ S, ∃ c, lt a b = .ok c ∧ (c = true ↔ key a < key b)

/-- No element is above a later one. -/
def Ascends (key : α → κ) (l : List α) : Prop :=
  l.Pairwise fun a b => key a ≤ key b

variable {lt : α → α → Except Failure Bool} {key : α → κ} {S : Set α}

private theorem Ascends.cons_of_le {a b : α} {l : List α} (hab : key a ≤ key b)
    (h : Ascends key (b :: l)) : Ascends key (a :: b :: l) := by
  refine List.pairwise_cons.mpr ⟨fun c hc => ?_, h⟩
  rcases List.mem_cons.mp hc with rfl | hc
  · exact hab
  · exact hab.trans ((List.pairwise_cons.mp h).1 c hc)

variable (hlt : ComparesBy lt key S)

include hlt in
private theorem ComparesBy.cases {a b : α} (ha : a ∈ S) (hb : b ∈ S) :
    (lt a b = .ok true ∧ key a < key b) ∨ (lt a b = .ok false ∧ key b ≤ key a) := by
  obtain ⟨c, hc, hkey⟩ := hlt a ha b hb
  cases c with
  | true => exact .inl ⟨hc, hkey.mp rfl⟩
  | false => exact .inr ⟨hc, not_lt.mp fun hab => Bool.noConfusion (hkey.mpr hab)⟩

section LeadingRun

include hlt

private theorem ascendingRun_ok {a : α} (ha : a ∈ S) {l : List α} (hl : ∀ b ∈ l, b ∈ S) :
    ∃ run rest, ascendingRun lt a l = .ok (run, rest) ∧ run ++ rest = l ∧
      Ascends key (a :: run) := by
  induction l generalizing a with
  | nil => exact ⟨[], [], rfl, rfl, List.pairwise_singleton _ a⟩
  | cons b l ih =>
    have hb : b ∈ S := hl b List.mem_cons_self
    rw [ascendingRun]
    rcases hlt.cases hb ha with ⟨hcompare, hba⟩ | ⟨hcompare, hab⟩
    · refine ⟨[], b :: l, ?_, rfl, List.pairwise_singleton _ a⟩
      rw [hcompare]
      rfl
    · obtain ⟨run, rest, hrun, happend, hasc⟩ := ih hb fun c hc => hl c (List.mem_cons_of_mem b hc)
      refine ⟨b :: run, rest, ?_, by rw [List.cons_append, happend], hasc.cons_of_le hab⟩
      rw [hcompare]
      change (ascendingRun lt b l >>= _) = _
      rw [hrun]
      rfl

private theorem descendingRun_ok {a : α} {acc : List α} (ha : a ∈ S)
    (hacc : Ascends key (a :: acc)) {l : List α} (hl : ∀ b ∈ l, b ∈ S) :
    ∃ run rest, descendingRun lt a (a :: acc) l = .ok (run, rest) ∧
      (run ++ rest).Perm (a :: acc ++ l) ∧ Ascends key run := by
  induction l generalizing a acc with
  | nil => exact ⟨a :: acc, [], rfl, List.Perm.rfl, hacc⟩
  | cons b l ih =>
    have hb : b ∈ S := hl b List.mem_cons_self
    rw [descendingRun]
    rcases hlt.cases hb ha with ⟨hcompare, hba⟩ | ⟨hcompare, -⟩
    · obtain ⟨run, rest, hrun, hperm, hasc⟩ :=
        ih hb (hacc.cons_of_le hba.le) fun c hc => hl c (List.mem_cons_of_mem b hc)
      refine ⟨run, rest, ?_, hperm.trans List.perm_middle.symm, hasc⟩
      rw [hcompare]
      exact hrun
    · refine ⟨a :: acc, b :: l, ?_, List.Perm.rfl, hacc⟩
      rw [hcompare]
      rfl

private theorem leadingRun_ok {l : List α} (hl : ∀ b ∈ l, b ∈ S) :
    ∃ run rest, leadingRun lt l = .ok (run, rest) ∧ (run ++ rest).Perm l ∧ Ascends key run := by
  match l, hl with
  | [], _ => exact ⟨[], [], rfl, List.Perm.rfl, List.Pairwise.nil⟩
  | [a], _ => exact ⟨[a], [], rfl, List.Perm.rfl, List.pairwise_singleton _ a⟩
  | a :: b :: l, hl =>
    have ha : a ∈ S := hl a List.mem_cons_self
    have hb : b ∈ S := hl b (List.mem_cons_of_mem a List.mem_cons_self)
    have htail : ∀ c ∈ l, c ∈ S := fun c hc =>
      hl c (List.mem_cons_of_mem a (List.mem_cons_of_mem b hc))
    rw [leadingRun]
    rcases hlt.cases hb ha with ⟨hcompare, hba⟩ | ⟨hcompare, hab⟩
    · have hpair : Ascends key [b, a] := List.pairwise_pair.mpr hba.le
      obtain ⟨run, rest, hrun, hperm, hasc⟩ := descendingRun_ok hlt hb hpair htail
      refine ⟨run, rest, ?_, hperm.trans (List.Perm.swap a b l), hasc⟩
      rw [hcompare]
      exact hrun
    · obtain ⟨run, rest, hrun, happend, hasc⟩ := ascendingRun_ok hlt hb htail
      refine ⟨a :: b :: run, rest, ?_, ?_, hasc.cons_of_le hab⟩
      · rw [hcompare]
        change (ascendingRun lt b l >>= _) = _
        rw [hrun]
        rfl
      · rw [List.cons_append, List.cons_append, happend]

end LeadingRun

section Insert

variable {x : α} (hx : x ∈ S) {s : List α} (hs : ∀ a ∈ s, a ∈ S) (hasc : Ascends key s)

include hlt hx hs hasc

private theorem position_ok {l r : ℕ} (hr : r ≤ s.length) (hbelow : ∀ a ∈ s.take l, key a ≤ key x)
    (habove : ∀ a ∈ s.drop r, key x < key a) :
    ∃ i, position lt x s.toArray l r = .ok i ∧ (∀ a ∈ s.take i, key a ≤ key x) ∧
      ∀ a ∈ s.drop i, key x < key a := by
  induction hd : r - l using Nat.strongRecOn generalizing l r with
  | _ d ih =>
    rw [position]
    by_cases hlr : l < r
    · obtain ⟨p, hp⟩ : ∃ p, p = l + (r - l) / 2 := ⟨_, rfl⟩
      have hps : p < s.length := by omega
      have hmem : s[p] ∈ s := List.getElem_mem hps
      have hparted : Ascends key (s.take p ++ s[p] :: s.drop (p + 1)) := by
        rwa [← List.drop_eq_getElem_cons, List.take_append_drop]
      obtain ⟨-, hright, hcross⟩ := List.pairwise_append.mp hparted
      rw [dif_pos hlr, ← hp]
      simp only [List.getElem?_toArray, List.getElem?_eq_getElem hps]
      rcases hlt.cases hx (hs _ hmem) with ⟨hcompare, hxp⟩ | ⟨hcompare, hpx⟩
      · rw [hcompare]
        refine ih (p - l) (by omega) (by omega) hbelow (fun a ha => ?_) rfl
        rw [List.drop_eq_getElem_cons hps] at ha
        rcases List.mem_cons.mp ha with rfl | ha
        · exact hxp
        · exact hxp.trans_le ((List.pairwise_cons.mp hright).1 a ha)
      · rw [hcompare]
        refine ih (r - (p + 1)) (by omega) hr (fun a ha => ?_) habove rfl
        rw [List.take_succ_eq_append_getElem hps] at ha
        rcases List.mem_append.mp ha with ha | ha
        · exact (hcross a ha _ List.mem_cons_self).trans hpx
        · obtain rfl := List.mem_singleton.mp ha
          exact hpx
    · rw [dif_neg hlr]
      refine ⟨l, rfl, hbelow, fun a ha => habove a ?_⟩
      exact (List.drop_sublist_drop_left s (Nat.le_of_not_lt hlr)).subset ha

private theorem insert_ok : ∃ s', insert lt s x = .ok s' ∧ s'.Perm (x :: s) ∧ Ascends key s' := by
  have hnone : ∀ a ∈ s.take 0, key a ≤ key x := fun a ha => nomatch ha
  have hall : ∀ a ∈ s.drop s.length, key x < key a := by simp
  obtain ⟨i, hi, hbelow, habove⟩ := position_ok hlt hx hs hasc (Nat.le_refl _) hnone hall
  refine ⟨s.take i ++ x :: s.drop i, ?_, ?_, ?_⟩
  · rw [insert, hi]
    rfl
  · exact List.perm_middle.trans (.cons x (.of_eq (List.take_append_drop i s)))
  · have hparted : Ascends key (s.take i ++ s.drop i) := by rwa [List.take_append_drop]
    obtain ⟨hleft, hright, hcross⟩ := List.pairwise_append.mp hparted
    refine List.pairwise_append.mpr ⟨hleft, ?_, fun a ha b hb => ?_⟩
    · exact List.pairwise_cons.mpr ⟨fun b hb => (habove b hb).le, hright⟩
    · rcases List.mem_cons.mp hb with rfl | hb
      · exact hbelow a ha
      · exact hcross a ha b hb

end Insert

include hlt

private theorem foldlM_insert_ok {run rest : List α} (hrun : ∀ a ∈ run, a ∈ S)
    (hrest : ∀ a ∈ rest, a ∈ S) (hasc : Ascends key run) :
    ∃ s, rest.foldlM (insert lt) run = .ok s ∧ s.Perm (run ++ rest) ∧ Ascends key s := by
  induction rest generalizing run with
  | nil => exact ⟨run, rfl, .of_eq (List.append_nil run).symm, hasc⟩
  | cons x rest ih =>
    have hx : x ∈ S := hrest x List.mem_cons_self
    obtain ⟨run', hinsert, hperm, hasc'⟩ := insert_ok hlt hx hrun hasc
    have hrun' : ∀ a ∈ run', a ∈ S := by
      intro a ha
      rcases List.mem_cons.mp (hperm.subset ha) with rfl | ha
      · exact hx
      · exact hrun a ha
    obtain ⟨s, hs, hperm', hasc''⟩ := ih hrun' (fun a ha => hrest a (List.mem_cons_of_mem x ha)) hasc'
    refine ⟨s, ?_, hperm'.trans ?_, hasc''⟩
    · rw [List.foldlM_cons, hinsert]
      exact hs
    · exact (hperm.append_right rest).trans List.perm_middle.symm

theorem sort_ok {l : List α} (hl : ∀ a ∈ l, a ∈ S) :
    ∃ s, sort lt l = .ok s ∧ s.Perm l ∧ Ascends key s := by
  obtain ⟨run, rest, hleading, hperm, hasc⟩ := leadingRun_ok hlt hl
  have hrun : ∀ a ∈ run, a ∈ S := fun a ha => hl a (hperm.subset (List.mem_append_left rest ha))
  have hrest : ∀ a ∈ rest, a ∈ S := fun a ha => hl a (hperm.subset (List.mem_append_right run ha))
  obtain ⟨s, hs, hperm', hasc'⟩ := foldlM_insert_ok hlt hrun hrest hasc
  refine ⟨s, ?_, hperm'.trans hperm, hasc'⟩
  rw [sort, hleading]
  exact hs

end PolyIdeal.Insertion
