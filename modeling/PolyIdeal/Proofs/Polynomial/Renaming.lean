import PolyIdeal.Proofs.Ideal.Renaming
import PolyIdeal.Proofs.Polynomial.Leading

/-!
# Polynomials in rearranged variables

Rearranging the variables of a polynomial renames those of the polynomial that it stands for. Orders
that rank a monomial as the lexicographic order ranks the rearranged one become that order.
-/

namespace PolyIdeal

open Monomial MonomialOrder

namespace Permutation

def rearrange (p : Permutation) (m : Monomial) : Monomial :=
  p.images.map fun i => m.getD i 0

@[simp] theorem length_rearrange (p : Permutation) (m : Monomial) :
    (p.rearrange m).length = p.images.length :=
  List.length_map _

private theorem nodup_images (p : Permutation) : p.images.Nodup :=
  (List.isPerm_iff.mp p.isPerm).nodup_iff.mpr List.nodup_range

private theorem lt_of_mem_images {p : Permutation} {i : ℕ} (hi : i ∈ p.images) : i <
    p.images.length :=
  List.mem_range.mp ((List.isPerm_iff.mp p.isPerm).mem_iff.mp hi)

variable {n : ℕ} (p : Permutation) (hp : p.images.length = n)

def imageAt (i : Fin n) : Fin n :=
  ⟨p.images.get (i.cast hp.symm), (lt_of_mem_images (List.get_mem _ _)).trans_eq hp⟩

private theorem imageAt_bijective : Function.Bijective (p.imageAt hp) := by
  apply Finite.injective_iff_bijective.mp
  intro i j hij
  have hget := p.nodup_images.get_inj_iff.mp (congrArg Fin.val hij)
  exact Fin.cast_injective hp.symm hget

noncomputable def place : Fin n ≃ Fin n :=
  (Equiv.ofBijective (p.imageAt hp) (p.imageAt_bijective hp)).symm

private theorem rearrange_ofExponents (e : Fin n →₀ ℕ) :
    p.rearrange (ofExponents e) = ofExponents (e.mapDomain (p.place hp)) := by
  apply List.ext_getElem
  · simp [hp]
  · intro i hi _
    have hi' : i < n := by simpa [hp] using hi
    have hplace : (e.mapDomain (p.place hp)) ⟨i, hi'⟩ = e (p.imageAt hp ⟨i, hi'⟩) :=
      Finsupp.mapDomain_equiv_apply e _
    have hlt := (p.imageAt hp ⟨i, hi'⟩).isLt
    simp only [rearrange, ofExponents, List.getElem_map, List.getElem_ofFn, hplace]
    rw [List.getD_eq_getElem?_getD, List.getElem?_ofFn]
    exact congrArg (Option.getD · 0) (dif_pos hlt)

end Permutation

namespace Order

theorem accepts_lex {n : ℕ} : lex.accepts n = true := rfl

/-- An order that is lexicographic once the variables are rearranged. -/
inductive IsLexAfter (p : Permutation) : Order → Prop
  | permuted : IsLexAfter p (.permuted p)
  | revlex (hp : p.images = (List.range p.images.length).reverse) : IsLexAfter p .revlex

variable {p : Permutation} {order : Order} {n : ℕ}

namespace IsLexAfter

variable (horder : IsLexAfter p order) (hp : p.images.length = n)
include horder hp

theorem accepts : order.accepts n = true := by
  cases horder with
  | permuted => simp [Order.accepts, arrangement?, hp]
  | revlex hrev => rfl

private theorem rank_eq {m : Monomial} (hm : m.length = n) : order.rank m = p.rearrange m := by
  cases horder with
  | permuted => rfl
  | revlex hrev =>
    rw [rank, Permutation.rearrange, hrev, List.map_reverse, hp]
    congr 1
    apply List.ext_getElem
    · simp [hm]
    · intro i hi _
      simp [List.getD_eq_getElem?_getD, hi]

theorem carries : Carries (p.place hp) (order.monomialOrder n (horder.accepts hp))
    (Order.lex.monomialOrder n accepts_lex) := by
  intro d e
  rw [toSyn_lt_iff, toSyn_lt_iff, horder.rank_eq hp (length_ofExponents d),
    horder.rank_eq hp (length_ofExponents e), p.rearrange_ofExponents hp,
    p.rearrange_ofExponents hp]
  rfl

end IsLexAfter

end Order

section Renamed

variable {R : Type} [CommRing R] [DecidableEq R] {n : ℕ} {order order' : Order} {ρ : Fin n ≃ Fin n}

noncomputable def Monomial.rename (ρ : Fin n ≃ Fin n) (m : Monomial) : Monomial :=
  ofExponents ((exponents n m).mapDomain ρ)

@[simp] theorem Monomial.rename_ofExponents (d : Fin n →₀ ℕ) :
    rename ρ (ofExponents d) = ofExponents (d.mapDomain ρ) := by
  rw [rename, exponents_ofExponents]

/-- Polynomials one of which stands for what the other does in renamed variables. -/
structure Renamed (ρ : Fin n ≃ Fin n) (f f' : Polynomial R) : Prop where
  nvars_eq : f.nvars = n
  nvars_eq' : f'.nvars = n
  denote_eq : f'.denote n = MvPolynomial.rename ρ (f.denote n)

namespace Renamed

variable {f f' : Polynomial R} (hf : Renamed ρ f f')
include hf

theorem coefficient_eq (d : Fin n →₀ ℕ) :
    f'.coefficient (ofExponents (d.mapDomain ρ)) = f.coefficient (ofExponents d) := by
  rw [← Polynomial.coeff_denote hf.nvars_eq', ← Polynomial.coeff_denote hf.nvars_eq, hf.denote_eq,
    coeff_rename]

private theorem exists_of_mem_monomials {m : Monomial} (hm : m ∈ f.monomials) :
    ∃ d : Fin n →₀ ℕ, m = ofExponents d :=
  exists_ofExponents ((Polynomial.length_of_mem_monomials hm).trans hf.nvars_eq)

private theorem mem_monomials_iff {d : Fin n →₀ ℕ} :
    ofExponents (d.mapDomain ρ) ∈ f'.monomials ↔ ofExponents d ∈ f.monomials := by
  rw [Polynomial.mem_monomials_iff hf.nvars_eq', Polynomial.mem_monomials_iff hf.nvars_eq,
    hf.denote_eq, mapDomain_mem_support]

private theorem perm_monomials : (f.monomials.map (Monomial.rename ρ)).Perm f'.monomials := by
  have hnodup : (f.monomials.map (Monomial.rename ρ)).Nodup := by
    apply List.Nodup.map_on _ f.nodup_monomials
    intro a ha b hb heq
    obtain ⟨d, rfl⟩ := hf.exists_of_mem_monomials ha
    obtain ⟨e, rfl⟩ := hf.exists_of_mem_monomials hb
    rw [rename_ofExponents, rename_ofExponents, ofExponents_inj] at heq
    rw [Finsupp.mapDomain_injective ρ.injective heq]
  refine (List.perm_ext_iff_of_nodup hnodup f'.nodup_monomials).mpr fun m => ?_
  rw [List.mem_map]
  constructor
  · rintro ⟨m, hm, rfl⟩
    obtain ⟨d, rfl⟩ := hf.exists_of_mem_monomials hm
    rw [rename_ofExponents]
    exact hf.mem_monomials_iff.mpr hm
  · intro hm
    have hlen := (Polynomial.length_of_mem_monomials hm).trans hf.nvars_eq'
    obtain ⟨e, rfl⟩ := exists_ofExponents hlen
    obtain ⟨d, rfl⟩ := exists_mapDomain ρ e
    exact ⟨ofExponents d, hf.mem_monomials_iff.mp hm, rename_ofExponents d⟩

theorem descending_eq {h : order.accepts n = true} {h' : order'.accepts n = true}
    (hρ : Carries ρ (order.monomialOrder n h) (order'.monomialOrder n h')) :
    order'.descending f'.monomials = (order.descending f.monomials).map (Monomial.rename ρ) := by
  have hperm := ((order.descending_perm _).map (Monomial.rename ρ)).trans hf.perm_monomials
  have hmem {m : Monomial} (hm : m ∈ order.descending f.monomials) :
      ∃ d : Fin n →₀ ℕ, m = ofExponents d :=
    hf.exists_of_mem_monomials ((order.descending_perm _).subset hm)
  refine Order.descending_unique h' hperm ?_ ?_
  · intro m hm
    exact (Polynomial.length_of_mem_monomials (hperm.subset hm)).trans hf.nvars_eq'
  · refine List.pairwise_map.mpr ((order.descending_pairwise f.monomials).imp_of_mem ?_)
    intro a b ha hb hab
    obtain ⟨d, rfl⟩ := hmem ha
    obtain ⟨e, rfl⟩ := hmem hb
    rw [rename_ofExponents, rename_ofExponents]
    exact hρ.le_iff.mpr hab

end Renamed

theorem Proper.renamed {basis : List (Polynomial R)} {F : Polynomial R → Polynomial R}
    (hbasis : Proper n basis) (hF : ∀ g ∈ basis, Renamed ρ g (F g)) : Proper n (basis.map F) where
  nvars_eq := by
    intro _ hmem
    obtain ⟨g, hg, rfl⟩ := List.mem_map.mp hmem
    exact (hF g hg).nvars_eq'
  denote_ne_zero := by
    intro _ hmem
    obtain ⟨g, hg, rfl⟩ := List.mem_map.mp hmem
    rw [(hF g hg).denote_eq, rename_ne_zero_iff]
    exact hbasis.denote_ne_zero g hg

end Renamed

variable {R : Type} [CommRing R] [DecidableEq R] {n : ℕ} {p : Permutation}

/-- The polynomial with the variables of every monomial in the arrangement. -/
def Polynomial.rename (p : Permutation) (f : Polynomial R) : Polynomial R :=
  f.ofTermsLike (f.terms.map fun t => (p.rearrange t.1, t.2))

namespace Polynomial

variable {f : Polynomial R} (hp : p.images.length = n) (hf : f.nvars = n)

private theorem nvars_rename (p : Permutation) (f : Polynomial R) : (f.rename p).nvars = f.nvars :=
  nvars_ofTermsLike f _

include hp hf in
private theorem coefficient_rename (e : Fin n →₀ ℕ) :
    (f.rename p).coefficient (ofExponents (e.mapDomain (p.place hp))) =
      f.coefficient (ofExponents e) := by
  rw [← p.rearrange_ofExponents hp, rename, coefficient_ofTermsLike, sumAt_map, sumAt_terms]
  · intro t ht heq
    obtain ⟨d, hd⟩ := exists_ofExponents ((length_of_mem_terms ht).trans hf)
    rw [hd, p.rearrange_ofExponents hp, p.rearrange_ofExponents hp, ofExponents_inj] at heq
    rw [hd, Finsupp.mapDomain_injective (p.place hp).injective heq]
  · intro t ht
    obtain ⟨s, -, rfl⟩ := List.mem_map.mp ht
    simp [hp, hf]
  · simp [hp, hf]

include hf in
private theorem denote_rename :
    (f.rename p).denote n = MvPolynomial.rename (p.place hp) (f.denote n) := by
  refine denote_eq ((nvars_rename p f).trans hf) fun e' => ?_
  obtain ⟨e, rfl⟩ := exists_mapDomain (p.place hp) e'
  rw [coefficient_rename hp hf, coeff_rename, coeff_denote hf]

include hf in
theorem renamed_rename : Renamed (p.place hp) f (f.rename p) :=
  ⟨hf, (nvars_rename p f).trans hf, denote_rename hp hf⟩

end Polynomial

end PolyIdeal
