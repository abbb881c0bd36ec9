import PolyIdeal.Proofs.Polynomial.Denotation
import PolyIdeal.Value.Builder

/-!
# Builders as finite maps

The terms of a builder are a finite map without zeros. Each request that succeeds changes the
coefficients that it holds in the way the request says, so a run of requests can be replayed on the
coefficients alone.
-/

namespace PolyIdeal.Builder

open Function

section Entries

variable {R : Type} {terms : List (Monomial × R)} {m m' : Monomial} {c : R}

theorem lookup_cons (t : Monomial × R) (terms : List (Monomial × R)) (m : Monomial) :
    (t :: terms).lookup m = if m = t.1 then some t.2 else terms.lookup m := by
  obtain ⟨m', c⟩ := t
  by_cases hm : m = m'
  · simp [hm]
  · rw [List.lookup_cons, beq_eq_false_iff_ne.mpr hm, if_neg hm]

private theorem lookup_put (terms : List (Monomial × R)) (m m' : Monomial) (c : R) :
    (put terms m c).lookup m' = if m' = m then some c else terms.lookup m' := by
  induction terms with
  | nil => rw [put, lookup_cons]
  | cons t terms ih =>
    rw [put]
    split
    · rename_i ht
      subst ht
      rw [lookup_cons, lookup_cons]
      split <;> rfl
    · rename_i ht
      rw [lookup_cons, lookup_cons, ih]
      split
      · rename_i hm
        rw [if_neg fun h => ht (hm.symm.trans h)]
      · rfl

private theorem lookup_erase (terms : List (Monomial × R)) (m m' : Monomial) :
    (erase terms m).lookup m' = if m' = m then none else terms.lookup m' := by
  induction terms with
  | nil => exact (ite_self none).symm
  | cons t terms ih =>
    rw [erase] at ih ⊢
    rw [List.filter_cons, lookup_cons]
    by_cases ht : t.1 = m
    · rw [if_neg (by simpa using ht), ih, ht]
      split <;> rfl
    · rw [if_pos (by simpa using ht), lookup_cons, ih]
      split
      · rename_i hm
        rw [if_neg fun h => ht (hm.symm.trans h)]
      · rfl

private theorem mem_put {t : Monomial × R} (h : t ∈ put terms m c) : t = (m, c) ∨ t ∈ terms := by
  induction terms with
  | nil => simpa [put] using h
  | cons s terms ih =>
    rw [put] at h
    split at h
    · exact (List.mem_cons.mp h).imp_right (List.mem_cons_of_mem s)
    · rcases List.mem_cons.mp h with rfl | h
      · exact .inr List.mem_cons_self
      · exact (ih h).imp_right (List.mem_cons_of_mem s)

private theorem nodup_put (h : (terms.map Prod.fst).Nodup) :
    ((put terms m c).map Prod.fst).Nodup := by
  induction terms with
  | nil => simp [put]
  | cons s terms ih =>
    rw [List.map_cons, List.nodup_cons] at h
    rw [put]
    split
    · rename_i hs
      subst hs
      exact List.nodup_cons.mpr h
    · rename_i hs
      rw [List.map_cons, List.nodup_cons]
      refine ⟨?_, ih h.2⟩
      intro hmem
      obtain ⟨t, ht, hts⟩ := List.mem_map.mp hmem
      rcases mem_put ht with rfl | ht
      · exact hs hts.symm
      · exact h.1 (List.mem_map.mpr ⟨t, ht, hts⟩)

private theorem nodup_erase (h : (terms.map Prod.fst).Nodup) :
    ((erase terms m).map Prod.fst).Nodup :=
  h.sublist (List.filter_sublist.map Prod.fst)

end Entries

variable {R : Type} [CommRing R]

/-- The terms of a builder are a map of monomials in its variables to coefficients that are not zero,
and hold the coefficients `f`. -/
structure Holds (b : Builder R) (f : Monomial → R) : Prop where
  nodup : (b.terms.map Prod.fst).Nodup
  ne_zero : ∀ t ∈ b.terms, t.2 ≠ 0
  length_eq : ∀ t ∈ b.terms, t.1.length = b.nvars
  lookup_eq : b.lookup = f

namespace Holds

variable {b b' : Builder R} {f : Monomial → R} {m : Monomial} {c : R}

theorem create {nvars : ℕ} : ({ nvars := nvars } : Builder R).Holds 0 where
  nodup := List.nodup_nil
  ne_zero := by simp
  length_eq := by simp
  lookup_eq := rfl

variable [DecidableEq R]

theorem assign (hb : b.Holds f) (hm : m.length = b.nvars) (c : R) :
    (b.assign m c).Holds (update f m c) := by
  have hlookup (m' : Monomial) : (b.terms.lookup m').getD 0 = f m' := congrFun hb.lookup_eq m'
  by_cases hc : c = 0
  · have hterms : (b.assign m c).terms = erase b.terms m := if_pos hc
    refine ⟨?_, ?_, ?_, ?_⟩
    · rw [hterms]
      exact nodup_erase hb.nodup
    · rw [hterms]
      exact fun t ht => hb.ne_zero t (List.mem_of_mem_filter ht)
    · rw [hterms]
      exact fun t ht => hb.length_eq t (List.mem_of_mem_filter ht)
    · funext m'
      rw [lookup, hterms, lookup_erase, update_apply, ← hlookup, hc]
      split <;> rfl
  · have hterms : (b.assign m c).terms = put b.terms m c := if_neg hc
    refine ⟨?_, ?_, ?_, ?_⟩
    · rw [hterms]
      exact nodup_put hb.nodup
    · rw [hterms]
      exact fun t ht => (mem_put ht).elim (fun h => h ▸ hc) (hb.ne_zero t)
    · rw [hterms]
      exact fun t ht => (mem_put ht).elim (fun h => h ▸ hm) (hb.length_eq t)
    · funext m'
      rw [lookup, hterms, lookup_put, update_apply, ← hlookup]
      split <;> rfl

private theorem increase (hb : b.Holds f) (hm : m.length = b.nvars) (c : R) :
    (b.increase m c).Holds (update f m (f m + c)) := by
  rw [Builder.increase, hb.lookup_eq]
  exact hb.assign hm _

end Holds

section Requests

variable [DecidableEq R] [Coefficient R]

/-- The element that an operand is converted to. -/
def converted (c : Option Scalar) : R :=
  (c.bind Coefficient.ofScalar?).getD 0

/-- What a request makes of coefficients, if it succeeds. -/
def Request.replay (f : Monomial → R) : Request → Monomial → R
  | .set exponents c => update f (exponents.map Int.toNat) (converted c)
  | .addTerm exponents c =>
    update f (exponents.map Int.toNat) (f (exponents.map Int.toNat) + converted c)
  | .add _ terms => terms.foldl (fun f t => update f t.1 (f t.1 + converted (some t.2))) f
  | .remove exponents => update f (exponents.map Int.toNat) 0

def replay (requests : List Request) : Monomial → R :=
  requests.foldl Request.replay 0

/-- Whether a request is one that can be made: what is added at once are the terms of a polynomial,
over any domain. -/
def Request.IsCall : Request → Prop
  | .add nvars terms => ∃ p : AnyPolynomial, AnyBuilder.addition p = .add nvars terms
  | _ => True

/-- The builder after requests, if all of them succeed. -/
def applyAll (b : Builder R) : List Request → Option (Builder R)
  | [] => some b
  | r :: requests =>
    match b.apply r with
    | (b', .ok ()) => b'.applyAll requests
    | (_, .error _) => none

variable {b b' : Builder R} {f : Monomial → R} {m : Monomial} {c : R}

omit [CommRing R] [DecidableEq R] [Coefficient R] in
theorem monomial?_ok {exponents : List ℤ} (h : b.monomial? exponents = .ok m) :
    m = exponents.map Int.toNat ∧ m.length = b.nvars ∧
      Monomial.ofInts? exponents = .ok (exponents.map Int.toNat) := by
  rw [monomial?, Monomial.ofInts?] at h
  rw [Monomial.ofInts?]
  split at h
  · rename_i hnonneg
    simp only [bind, Except.bind] at h
    split at h
    · rename_i hlength
      obtain rfl := Except.ok.inj h
      exact ⟨rfl, hlength, if_pos hnonneg⟩
    · cases h
  · cases h

omit [DecidableEq R] in
theorem ofOperand?_ok {v : Option Scalar} (h : Coefficient.ofOperand? v = .ok c) :
    converted v = c ∧ v.bind Coefficient.ofScalar? = some c := by
  rw [Coefficient.ofOperand?] at h
  split at h
  · rename_i hc
    rw [converted, hc, ← Except.ok.inj h]
    exact ⟨rfl, rfl⟩
  · cases h

omit [DecidableEq R] in
theorem length_of_isCall {nvars : ℕ} {terms : List (Monomial × Scalar)}
    (h : (Request.add nvars terms).IsCall) {t : Monomial × Scalar} (ht : t ∈ terms) :
    t.1.length = nvars := by
  obtain ⟨p, hp⟩ := h
  cases hp
  obtain ⟨s, hs, rfl⟩ := List.mem_map.mp ht
  exact Polynomial.length_of_mem_terms hs

private theorem Holds.addTerms {terms : List (Monomial × Scalar)} (hb : b.Holds f)
    (hl : ∀ t ∈ terms, t.1.length = b.nvars) (h : b.addTerms terms = (b', .ok ())) :
    b'.nvars = b.nvars ∧
      b'.Holds (terms.foldl (fun f t => update f t.1 (f t.1 + converted (some t.2))) f) := by
  induction terms generalizing b f with
  | nil =>
    cases h
    exact ⟨rfl, hb⟩
  | cons t terms ih =>
    obtain ⟨ht, hterms⟩ := List.forall_mem_cons.mp hl
    rw [Builder.addTerms] at h
    split at h
    · cases h
    · rename_i c hc
      rw [List.foldl_cons, converted, Option.bind_some, hc]
      exact ih (b := b.increase t.1 c) (hb.increase ht c) hterms h

private theorem Holds.apply {r : Request} (hb : b.Holds f) (hr : r.IsCall)
    (h : b.apply r = (b', .ok ())) : b'.nvars = b.nvars ∧ b'.Holds (r.replay f) := by
  cases r with
  | set exponents v =>
    rw [Builder.apply] at h
    split at h
    · cases h
    · rename_i m hm
      obtain ⟨rfl, hlength, -⟩ := monomial?_ok hm
      split at h
      · cases h
      · rename_i c hc
        cases h
        rw [Request.replay, (ofOperand?_ok hc).1]
        exact ⟨rfl, hb.assign hlength c⟩
  | addTerm exponents v =>
    rw [Builder.apply] at h
    split at h
    · cases h
    · rename_i m hm
      obtain ⟨rfl, hlength, -⟩ := monomial?_ok hm
      split at h
      · cases h
      · rename_i c hc
        cases h
        rw [Request.replay, (ofOperand?_ok hc).1]
        exact ⟨rfl, hb.increase hlength c⟩
  | add nvars terms =>
    rw [Builder.apply] at h
    split at h
    · rename_i hnvars
      subst hnvars
      exact hb.addTerms (fun t => length_of_isCall hr) h
    · cases h
  | remove exponents =>
    rw [Builder.apply] at h
    split at h
    · cases h
    · rename_i m hm
      obtain ⟨rfl, hlength, -⟩ := monomial?_ok hm
      cases h
      have hremoved := hb.assign hlength 0
      rw [Builder.assign, if_pos rfl] at hremoved
      exact ⟨rfl, hremoved⟩

theorem Holds.applyAll {requests : List Request} (hb : b.Holds f)
    (hcalls : ∀ r ∈ requests, r.IsCall) (h : b.applyAll requests = some b') :
    b'.nvars = b.nvars ∧ b'.Holds (requests.foldl Request.replay f) := by
  induction requests generalizing b f with
  | nil =>
    cases h
    exact ⟨rfl, hb⟩
  | cons r requests ih =>
    obtain ⟨hr, hcalls⟩ := List.forall_mem_cons.mp hcalls
    rw [Builder.applyAll] at h
    split at h
    · rename_i b₁ happly
      obtain ⟨hnvars, hb₁⟩ := hb.apply hr happly
      obtain ⟨hnvars', hb'⟩ := ih hb₁ hcalls h
      exact ⟨hnvars'.trans hnvars, hb'⟩
    · cases h

end Requests

end PolyIdeal.Builder
