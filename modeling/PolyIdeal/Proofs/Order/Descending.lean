import PolyIdeal.Proofs.Order.Admissible
import PolyIdeal.Proofs.Polynomial.Leading

/-!
# Descending supports

The monomials of a polynomial in descending order form a strictly descending list. If the highest
monomial in which two polynomials differ belongs to the one, the list of the other is smaller.
-/

namespace PolyIdeal

private theorem lex_of_lower {α : Type} [LinearOrder α] {l l' : List α}
    (hl : l.Pairwise (· > ·)) (hl' : l'.Pairwise (· > ·)) {x : α} (hx : x ∈ l) (hx' : x ∉ l')
    (habove : ∀ y, x < y → (y ∈ l' ↔ y ∈ l)) : List.Lex (· < ·) l' l := by
  induction l generalizing l' with
  | nil => cases hx
  | cons a l ih =>
    obtain ⟨ha, htail⟩ := List.pairwise_cons.mp hl
    cases l' with
    | nil => exact .nil
    | cons b l' =>
      obtain ⟨hb, htail'⟩ := List.pairwise_cons.mp hl'
      rcases lt_trichotomy b a with hlt | rfl | hgt
      · exact .rel hlt
      · have hne : x ≠ b := by
          rintro rfl
          exact hx' List.mem_cons_self
        have hmem : x ∈ l := (List.mem_cons.mp hx).resolve_left hne
        refine .cons (ih htail htail' hmem (fun h => hx' (List.mem_cons_of_mem b h)) fun y hy => ?_)
        have hyb : y ∈ b :: l' ↔ y ∈ b :: l := habove y hy
        by_cases hyb' : y = b
        · subst hyb'
          constructor
          · intro h
            exact absurd (hb y h) (lt_irrefl y)
          · intro h
            exact absurd (ha y h) (lt_irrefl y)
        · simpa [hyb'] using hyb
      · -- The head would lie above `x` without belonging to the other list.
        have hxa : x ≤ a := by
          rcases List.mem_cons.mp hx with rfl | hx
          · exact le_rfl
          · exact (ha x hx).le
        have hmem := (habove b (lt_of_le_of_lt hxa hgt)).mp List.mem_cons_self
        rcases List.mem_cons.mp hmem with rfl | hmem
        · exact absurd hgt (lt_irrefl _)
        · exact absurd hgt (lt_asymm (ha b hmem))

private theorem lex_map {α β : Type} {r : α → α → Prop} {s : β → β → Prop} {f : α → β}
    (hf : ∀ x y, r x y → s (f x) (f y)) {l l' : List α} (h : List.Lex r l l') :
    List.Lex s (l.map f) (l'.map f) := by
  induction h with
  | nil => exact .nil
  | rel hxy => exact .rel (hf _ _ hxy)
  | cons _ ih => exact .cons ih

namespace Polynomial

open Monomial MonomialOrder

variable {R : Type} [CommRing R] [DecidableEq R] {n : ℕ} {order : Order}
  (h : order.accepts n = true)

/-- The monomials that occur, from the highest. -/
private noncomputable def descendingSupport (p : Polynomial R) :
    List (order.monomialOrder n h).syn :=
  (order.descending p.monomials).map fun m => (order.monomialOrder n h).toSyn (exponents n m)

variable {p q : Polynomial R} (hp : p.nvars = n)

include hp in
private theorem mem_descendingSupport {e : Fin n →₀ ℕ} :
    (order.monomialOrder n h).toSyn e ∈ descendingSupport h p ↔ e ∈ (p.denote n).support := by
  rw [← mem_descending_iff hp, descendingSupport, List.mem_map]
  constructor
  · rintro ⟨m, hm, he⟩
    rwa [← (order.monomialOrder n h).toSyn.injective he,
      ofExponents_exponents (length_of_mem_descending hp hm)]
  · intro he
    exact ⟨_, he, by rw [exponents_ofExponents]⟩

include hp in
private theorem descendingSupport_pairwise : (descendingSupport h p).Pairwise (· > ·) := by
  have hstrict := Order.descending_strict h
    (fun m hm => (length_of_mem_monomials hm).trans hp) p.nodup_monomials
  rw [descendingSupport, List.pairwise_map]
  apply hstrict.imp_of_mem
  intro a b ha hb hab
  obtain ⟨d, rfl⟩ := exists_ofExponents (length_of_mem_descending hp ha)
  obtain ⟨e, rfl⟩ := exists_ofExponents (length_of_mem_descending hp hb)
  rw [exponents_ofExponents, exponents_ofExponents]
  exact Order.compare_ofExponents.mp hab

include hp in
private theorem map_rank_descending : (order.descending p.monomials).map order.rank =
    (descendingSupport h p).map fun x =>
      order.rank (ofExponents ((order.monomialOrder n h).toSyn.symm x)) := by
  rw [descendingSupport, List.map_map]
  apply List.map_congr_left
  intro m hm
  rw [Function.comp_apply, AddEquiv.symm_apply_apply,
    ofExponents_exponents (length_of_mem_descending hp hm)]

private theorem shortLex_rank {x y : (order.monomialOrder n h).syn} (hxy : x < y) :
    ShortLex (· < ·) (order.rank (ofExponents ((order.monomialOrder n h).toSyn.symm x)))
      (order.rank (ofExponents ((order.monomialOrder n h).toSyn.symm y))) := by
  refine (Order.below_ofExponents (h := h)).mpr ?_
  rwa [AddEquiv.apply_symm_apply, AddEquiv.apply_symm_apply]

section Lower

variable (hq : q.nvars = n) {d : Fin n →₀ ℕ} (hd : d ∈ (p.denote n).support)
  (hd' : (q.denote n).coeff d = 0)
  (habove : ∀ e, d ≺[order.monomialOrder n h] e → (q.denote n).coeff e = (p.denote n).coeff e)

include hp hq hd hd' habove

private theorem lex_descendingSupport :
    List.Lex (· < ·) (descendingSupport h q) (descendingSupport h p) := by
  refine lex_of_lower (x := (order.monomialOrder n h).toSyn d) (descendingSupport_pairwise h hp)
    (descendingSupport_pairwise h hq) ?_ ?_ ?_
  · exact (mem_descendingSupport h hp).mpr hd
  · rw [mem_descendingSupport h hq, MvPolynomial.mem_support_iff, hd']
    exact fun hne => hne rfl
  · intro y hy
    obtain ⟨e, rfl⟩ := (order.monomialOrder n h).toSyn.surjective y
    rw [mem_descendingSupport h hq, mem_descendingSupport h hp, MvPolynomial.mem_support_iff,
      MvPolynomial.mem_support_iff, habove e hy]

theorem descendsTo_of_lower :
    DescendsTo (ShortLex (· < ·)) ((order.descending q.monomials).map order.rank)
      ((order.descending p.monomials).map order.rank) := by
  rw [map_rank_descending h hp, map_rank_descending h hq]
  constructor
  · rw [List.pairwise_map]
    exact (descendingSupport_pairwise h hq).imp fun hxy => shortLex_rank h hxy
  · exact lex_map (fun x y hxy => shortLex_rank h hxy)
      (lex_descendingSupport h hp hq hd hd' habove)

theorem lex_of_lower_support :
    List.Lex (· < ·) ((order.descending q.monomials).map order.rank)
      ((order.descending p.monomials).map order.rank) := by
  rw [map_rank_descending h hp, map_rank_descending h hq]
  refine lex_map (fun x y hxy => ?_) (lex_descendingSupport h hp hq hd hd' habove)
  rwa [← Order.toSyn_lt_iff (h := h), AddEquiv.apply_symm_apply, AddEquiv.apply_symm_apply]

end Lower

end Polynomial

end PolyIdeal
