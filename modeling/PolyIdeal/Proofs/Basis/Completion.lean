import PolyIdeal.Basis.Completion
import PolyIdeal.Proofs.Basis.SPolynomial

/-!
# Completion under a join

What the joins keep holds in the end, unless a join fails. A pair that is settled stays settled when
elements are appended, so that in the end all pairs are.
-/

namespace PolyIdeal

namespace Completion

variable {ε P : Type} {monomial : P → Option Monomial}
  {join : List P → ℕ × ℕ → P → P → Traced ε (Option P)} {basis : List P} {p : ℕ × ℕ}
  {rest : List (ℕ × ℕ)} {f g r : P}

theorem complete_skip (h : basis[p.1]? = none ∨ basis[p.2]? = none) :
    complete monomial join basis (p :: rest) = complete monomial join basis rest := by
  rw [complete]
  rcases h with h | h
  · simp only [h]
  · cases hf : basis[p.1]? <;> simp only [h]

theorem result_complete_none (hf : basis[p.1]? = some f) (hg : basis[p.2]? = some g)
    (hjoin : (join basis p f g).result = .ok none) :
    (complete monomial join basis (p :: rest)).result =
      (complete monomial join basis rest).result := by
  rw [complete]
  simp only [hf, hg, hjoin]

theorem result_complete_some (hf : basis[p.1]? = some f) (hg : basis[p.2]? = some g)
    (hjoin : (join basis p f g).result = .ok (some r))
    (hadvances : advances monomial basis p r = true) :
    (complete monomial join basis (p :: rest)).result =
      (complete monomial join (basis ++ [r])
        (rest.merge (pairsWith basis.length) pairBefore)).result := by
  rw [complete]
  simp only [hf, hg, hjoin, hadvances, dite_true]

theorem result_complete_error {e : Failure} (hf : basis[p.1]? = some f) (hg : basis[p.2]? = some g)
    (hjoin : (join basis p f g).result = .error e) :
    (complete monomial join basis (p :: rest)).result = .error e := by
  rw [complete]
  simp only [hf, hg, hjoin]

theorem result_complete_stuck (hf : basis[p.1]? = some f) (hg : basis[p.2]? = some g)
    (hjoin : (join basis p f g).result = .ok (some r))
    (hstuck : ¬ advances monomial basis p r = true) :
    (complete monomial join basis (p :: rest)).result = .ok (basis ++ [r]) := by
  rw [complete]
  simp only [hf, hg, hjoin]
  rw [dif_neg hstuck]

theorem result_complete_of_none {pending : List (ℕ × ℕ)}
    (hnone : ∀ p ∈ pending, ∀ f g, basis[p.1]? = some f → basis[p.2]? = some g →
      (join basis p f g).result = .ok none) :
    (complete monomial join basis pending).result = .ok basis := by
  induction pending with
  | nil =>
    rw [complete]
    rfl
  | cons p rest ih =>
    have hrest := ih fun q hq => hnone q (List.mem_cons_of_mem p hq)
    cases hf : basis[p.1]? with
    | none => rwa [complete_skip (.inl hf)]
    | some f =>
      cases hg : basis[p.2]? with
      | none => rwa [complete_skip (.inr hg)]
      | some g => rwa [result_complete_none hf hg (hnone p List.mem_cons_self f g hf hg)]

/-- What holds of a list and its pending pairs while pairs are joined holds in the end, unless a
join fails, if all that is appended advances. -/
theorem complete_invariant {Inv : List P → List (ℕ × ℕ) → Prop} {Fails : Failure → Prop}
    (hskip : ∀ basis p rest, Inv basis (p :: rest) →
      (basis[p.1]? = none ∨ basis[p.2]? = none) → Inv basis rest)
    (hstep : ∀ basis p rest f g, Inv basis (p :: rest) → basis[p.1]? = some f →
      basis[p.2]? = some g →
      (∃ e, (join basis p f g).result = .error e ∧ Fails e) ∨
        ((join basis p f g).result = .ok none ∧ Inv basis rest) ∨
        ∃ r, (join basis p f g).result = .ok (some r) ∧ advances monomial basis p r = true ∧
          Inv (basis ++ [r]) (rest.merge (pairsWith basis.length) pairBefore))
    {pending : List (ℕ × ℕ)} (hinv : Inv basis pending) :
    (∃ e, (complete monomial join basis pending).result = .error e ∧ Fails e) ∨
      ∃ completed, (complete monomial join basis pending).result = .ok completed ∧
        Inv completed [] := by
  induction basis, pending using complete.induct monomial join with
  | case1 basis =>
    rw [complete]
    exact .inr ⟨basis, rfl, hinv⟩
  | case2 basis p rest f g hg hf t e he =>
    rcases hstep basis p rest f g hinv hf hg with ⟨e', herror, hfails⟩ | ⟨hok, -⟩ | ⟨r, hok, -⟩
    · exact .inl ⟨e', result_complete_error hf hg herror, hfails⟩
    · exact absurd (he.symm.trans hok) nofun
    · exact absurd (he.symm.trans hok) nofun
  | case3 basis p rest f g hg hf t ht ih =>
    rcases hstep basis p rest f g hinv hf hg with ⟨e, herror, -⟩ | ⟨-, hrest⟩ | ⟨r, hok, -⟩
    · exact absurd (ht.symm.trans herror) nofun
    · rw [result_complete_none hf hg ht]
      exact ih hrest
    · exact absurd (ht.symm.trans hok) nofun
  | case4 basis p rest f g hg hf t r ht hadvances ih =>
    rcases hstep basis p rest f g hinv hf hg with ⟨e, herror, -⟩ | ⟨hok, -⟩ | ⟨r', hok, -, hrest⟩
    · exact absurd (ht.symm.trans herror) nofun
    · exact absurd (ht.symm.trans hok) nofun
    · obtain rfl : r = r' := Option.some.inj (Except.ok.inj (ht.symm.trans hok))
      rw [result_complete_some hf hg ht hadvances]
      exact ih hrest
  | case5 basis p rest f g hg hf t r ht hstuck =>
    rcases hstep basis p rest f g hinv hf hg with
      ⟨e, herror, -⟩ | ⟨hok, -⟩ | ⟨r', hok, hadvances, -⟩
    · exact absurd (ht.symm.trans herror) nofun
    · exact absurd (ht.symm.trans hok) nofun
    · obtain rfl : r = r' := Option.some.inj (Except.ok.inj (ht.symm.trans hok))
      exact absurd hadvances hstuck
  | case6 basis p rest hnone ih =>
    have hskipped : basis[p.1]? = none ∨ basis[p.2]? = none := by
      cases hf : basis[p.1]? with
      | none => exact .inl rfl
      | some f =>
        cases hg : basis[p.2]? with
        | none => exact .inr rfl
        | some g => exact (hnone f g hf hg).elim
    rw [complete_skip hskipped]
    exact ih (hskip basis p rest hinv hskipped)

section Order

theorem pairwise_criticalPairs (n : ℕ) :
    (criticalPairs n).Pairwise fun p q => pairBefore q p = false := by
  rw [criticalPairs, List.pairwise_flatMap]
  constructor
  · intro i _
    rw [List.pairwise_map]
    refine (List.pairwise_lt_range').imp fun hlt => ?_
    simp only [pairBefore, Bool.or_eq_false_iff, Bool.and_eq_false_iff, decide_eq_false_iff_not]
    omega
  · refine List.pairwise_lt_range.imp fun hlt => ?_
    rintro p hp q hq
    obtain ⟨k, -, rfl⟩ := List.mem_map.mp hp
    obtain ⟨l, -, rfl⟩ := List.mem_map.mp hq
    simp only [pairBefore, Bool.or_eq_false_iff, Bool.and_eq_false_iff, decide_eq_false_iff_not,
      beq_eq_false_iff_ne]
    omega

theorem ordered_criticalPairs (n : ℕ) :
    (criticalPairs n).Pairwise fun p q => pairBefore p q = true := by
  refine (pairwise_criticalPairs n).imp fun {p q} hpq => ?_
  simp only [pairBefore, Bool.or_eq_true, Bool.or_eq_false_iff, Bool.and_eq_false_iff,
    Bool.and_eq_true, decide_eq_true_eq, decide_eq_false_iff_not, beq_iff_eq,
    beq_eq_false_iff_ne] at *
  omega

theorem nodup_criticalPairs (n : ℕ) : (criticalPairs n).Nodup := by
  refine (pairwise_criticalPairs n).imp fun {p q} hpq heq => ?_
  simp [heq, pairBefore] at hpq

private theorem pairwise_pairsWith (n : ℕ) :
    (pairsWith n).Pairwise fun p q => pairBefore p q = true := by
  rw [pairsWith, List.pairwise_map]
  refine List.pairwise_lt_range.imp fun hlt => ?_
  simp only [pairBefore, Bool.or_eq_true, decide_eq_true_eq]
  exact .inl hlt

theorem mem_pairsWith {n : ℕ} : p ∈ pairsWith n ↔ p.1 < p.2 ∧ p.2 = n := by
  simp only [pairsWith, List.mem_map, List.mem_range]
  constructor
  · rintro ⟨i, hi, rfl⟩
    exact ⟨hi, rfl⟩
  · rintro ⟨hlt, rfl⟩
    exact ⟨p.1, hlt, rfl⟩

theorem criticalPairs_succ (n : ℕ) :
    (criticalPairs (n + 1)).Perm (criticalPairs n ++ pairsWith n) := by
  have hnew : (pairsWith n).Nodup := by
    refine List.nodup_range.map fun i j hij => ?_
    exact congrArg Prod.fst hij
  refine (List.perm_ext_iff_of_nodup (nodup_criticalPairs _)
    ((nodup_criticalPairs n).append hnew ?_)).mpr ?_
  · intro p hp hp'
    have hlt := (mem_criticalPairs.mp hp).2
    have heq := (mem_pairsWith.mp hp').2
    omega
  · rintro ⟨i, j⟩
    rw [List.mem_append, mem_criticalPairs, mem_criticalPairs, mem_pairsWith]
    dsimp only
    omega

theorem pairwise_merge_pairsWith (h : rest.Pairwise fun p q => pairBefore p q = true) (n : ℕ) :
    (rest.merge (pairsWith n) pairBefore).Pairwise fun p q => pairBefore p q = true := by
  refine List.pairwise_merge ?_ ?_ _ _ h (pairwise_pairsWith n)
  · intro p q r hpq hqr
    simp only [pairBefore, Bool.or_eq_true, Bool.and_eq_true, decide_eq_true_eq, beq_iff_eq] at *
    omega
  · intro p q
    simp only [pairBefore, Bool.or_eq_true, Bool.and_eq_true, decide_eq_true_eq, beq_iff_eq]
    omega

end Order

section Pairs

variable {settled settled' : P → P → Prop} {pending : List (ℕ × ℕ)}

/-- Every pair of different elements is pending or settled. -/
def PairsSettled (settled : P → P → Prop) (basis : List P) (pending : List (ℕ × ℕ)) : Prop :=
  ∀ i j f g, i < j → basis[i]? = some f → basis[j]? = some g → (i, j) ∈ pending ∨ settled f g

theorem pairsSettled_criticalPairs : PairsSettled settled basis (criticalPairs basis.length) := by
  intro i j f g hij hi hj
  have hlt : j < basis.length := (List.getElem?_eq_some_iff.mp hj).1
  exact .inl (mem_criticalPairs.mpr ⟨hij, hlt⟩)

namespace PairsSettled

theorem imp (h : PairsSettled settled basis pending)
    (himp : ∀ f ∈ basis, ∀ g ∈ basis, settled f g → settled' f g) :
    PairsSettled settled' basis pending :=
  fun i j f g hij hi hj => (h i j f g hij hi hj).imp_right
    (himp f (List.mem_of_getElem? hi) g (List.mem_of_getElem? hj))

theorem skip (h : PairsSettled settled basis (p :: rest))
    (hp : ∀ f g, basis[p.1]? = some f → basis[p.2]? = some g → settled f g) :
    PairsSettled settled basis rest := by
  intro i j f g hij hi hj
  rcases h i j f g hij hi hj with hmem | hsettled
  · rcases List.mem_cons.mp hmem with rfl | hmem
    · exact .inr (hp f g hi hj)
    · exact .inl hmem
  · exact .inr hsettled

theorem settle (h : PairsSettled settled basis (p :: rest)) (hf : basis[p.1]? = some f)
    (hg : basis[p.2]? = some g) (hfg : settled f g) : PairsSettled settled basis rest := by
  apply h.skip
  intro f' g' hf' hg'
  obtain rfl := Option.some.inj (hf.symm.trans hf')
  obtain rfl := Option.some.inj (hg.symm.trans hg')
  exact hfg

theorem append (h : PairsSettled settled basis rest) (r : P) :
    PairsSettled settled (basis ++ [r]) (rest.merge (pairsWith basis.length) pairBefore) := by
  intro i j f g hij hi hj
  have hlt : j < (basis ++ [r]).length := (List.getElem?_eq_some_iff.mp hj).1
  rw [List.length_append, List.length_singleton] at hlt
  rw [List.mem_merge]
  rcases Nat.lt_or_ge j basis.length with hold | hnew
  · rw [List.getElem?_append_left (by omega)] at hi hj
    exact (h i j f g hij hi hj).imp_left .inl
  · obtain rfl : j = basis.length := by omega
    exact .inl (.inr (List.mem_map.mpr ⟨i, List.mem_range.mpr hij, rfl⟩))

theorem all (h : PairsSettled settled basis []) (hrefl : ∀ f, settled f f)
    (hsymm : ∀ f g, settled f g → settled g f) (hf : f ∈ basis) (hg : g ∈ basis) :
    settled f g := by
  obtain ⟨i, hi⟩ := List.mem_iff_getElem?.mp hf
  obtain ⟨j, hj⟩ := List.mem_iff_getElem?.mp hg
  rcases lt_trichotomy i j with hlt | rfl | hlt
  · exact (h i j f g hlt hi hj).resolve_left List.not_mem_nil
  · obtain rfl := Option.some.inj (hi.symm.trans hj)
    exact hrefl f
  · exact hsymm g f ((h j i g f hlt hj hi).resolve_left List.not_mem_nil)

end PairsSettled

end Pairs

end Completion

end PolyIdeal
