import PolyIdeal.Proofs.Builder.Replay
import PolyIdeal.Proofs.Polynomial.Conversion
import PolyIdeal.Proofs.Polynomial.Evaluation
import PolyIdeal.Proofs.Traced

/-!
# What builders build

The polynomial that is built has the coefficients that the requests leave when they are replayed. If
all of them add, it is the polynomial from all terms that they add, in any order.
-/

namespace PolyIdeal.Builder

open Function

variable {R : Type} [CommRing R]

section Build

variable {b b' : Builder R} {f : Monomial → R}

private theorem getD_lookup {terms : List (Monomial × R)} (hn : (terms.map Prod.fst).Nodup)
    (m : Monomial) : (terms.lookup m).getD 0 = sumAt terms m := by
  induction terms with
  | nil => rfl
  | cons t terms ih =>
    rw [List.map_cons, List.nodup_cons] at hn
    rw [lookup_cons, sumAt_cons]
    by_cases ht : m = t.1
    · subst ht
      rw [sumAt_of_not_mem fun c hc => hn.1 (List.mem_map.mpr ⟨_, hc, rfl⟩), add_zero, if_pos rfl,
        if_pos rfl]
      rfl
    · rw [if_neg ht, if_neg (Ne.symm ht), zero_add, ih hn.2]

private theorem sumAt_exponent {terms : List (Monomial × R)} (hl : ∀ t ∈ terms, t.1.length = 1)
    (i : ℕ) : sumAt (terms.map fun t => (t.1.getD 0 0, t.2)) i = sumAt terms [i] := by
  refine sumAt_map (i := [i]) (f := fun m : Monomial => m.getD 0 0) fun t ht hi => ?_
  obtain ⟨j, hj⟩ := List.length_eq_one_iff.mp (hl t ht)
  rw [hj] at hi ⊢
  exact congrArg (fun k => [k]) hi

theorem Holds.sumAt_terms (hb : b.Holds f) (m : Monomial) : sumAt b.terms m = f m := by
  rw [← hb.lookup_eq, lookup, getD_lookup hb.nodup]

variable [DecidableEq R]

/-- What is built from terms is known by their sums. -/
private theorem build_congr (hn : b.nvars = b'.nvars) (hl : ∀ t ∈ b.terms, t.1.length = b.nvars)
    (hl' : ∀ t ∈ b'.terms, t.1.length = b'.nvars)
    (h : ∀ m, sumAt b.terms m = sumAt b'.terms m) : b.build = b'.build := by
  obtain ⟨n, terms, _⟩ := b
  obtain ⟨n', terms', _⟩ := b'
  obtain rfl : n = n' := hn
  rw [build, build]
  split
  · rename_i hone
    obtain rfl : n = 1 := hone
    have heq : Univariate.ofTerms (terms.map fun t => (t.1.getD 0 0, t.2)) =
        Univariate.ofTerms (terms'.map fun t => (t.1.getD 0 0, t.2)) := by
      apply Univariate.ext_coefficient
      intro i
      rw [Univariate.coefficient_ofTerms, Univariate.coefficient_ofTerms, sumAt_exponent hl,
        sumAt_exponent hl', h]
    exact congrArg (Except.ok ∘ Polynomial.univariate) heq
  · split
    · rename_i hpos
      have heq : Multinomial.ofTerms n hpos terms = Multinomial.ofTerms n hpos terms' := by
        apply Multinomial.ext_coefficient
        · rw [Multinomial.nvars_ofTerms, Multinomial.nvars_ofTerms]
        · intro m
          rw [Multinomial.coefficient_ofTerms _ hl, Multinomial.coefficient_ofTerms _ hl', h]
      exact congrArg (Except.ok ∘ Polynomial.multinomial) heq
    · rfl

theorem build_ok (hpos : 0 < b.nvars) (hl : ∀ t ∈ b.terms, t.1.length = b.nvars) :
    ∃ p, b.build = .ok p ∧ p.nvars = b.nvars ∧ ∀ m, p.coefficient m = sumAt b.terms m := by
  -- At a monomial in other variables there is nothing on either side.
  have hcoefficient {p : Polynomial R} (hp : p.nvars = b.nvars)
      (h : ∀ m : Monomial, m.length = b.nvars → p.coefficient m = sumAt b.terms m) (m : Monomial) :
      p.coefficient m = sumAt b.terms m := by
    by_cases hm : m.length = b.nvars
    · exact h m hm
    · rw [sumAt_of_not_mem fun c hc => hm (hl _ hc)]
      by_contra hne
      exact hm ((Polynomial.length_of_coefficient_ne_zero hne).trans hp)
  by_cases hone : b.nvars = 1
  · refine ⟨_, if_pos hone, hone.symm, hcoefficient hone.symm fun m hm => ?_⟩
    rw [hone] at hl hm
    obtain ⟨i, rfl⟩ := List.length_eq_one_iff.mp hm
    exact (Univariate.coefficient_ofTerms _ i).trans (sumAt_exponent hl i)
  · have hnvars := Multinomial.nvars_ofTerms b.nvars hpos b.terms
    refine ⟨.multinomial (Multinomial.ofTerms b.nvars hpos b.terms), ?_, hnvars, fun m => ?_⟩
    · rw [build, if_neg hone, dif_pos hpos]
    · exact Multinomial.coefficient_ofTerms hpos hl m

theorem isUnivariate_of_build {p : Polynomial R} (h : b.build = .ok p) :
    p.isUnivariate = true ↔ b.nvars = 1 := by
  rw [build] at h
  split at h
  · rename_i hone
    obtain rfl := Except.ok.inj h
    exact iff_of_true rfl hone
  · rename_i hone
    split at h
    · obtain rfl := Except.ok.inj h
      exact iff_of_false Bool.false_ne_true hone
    · cases h

end Build

section Outcomes

variable [DecidableEq R] [Coefficient R]

private theorem addTerms_outcome {b₁ b₂ : Builder R} (hn : b₁.nvars = b₂.nvars)
    (terms : List (Monomial × Scalar)) :
    (b₁.addTerms terms).1.nvars = b₁.nvars ∧ (b₁.addTerms terms).2 = (b₂.addTerms terms).2 := by
  induction terms generalizing b₁ b₂ with
  | nil => exact ⟨rfl, rfl⟩
  | cons t terms ih =>
    rw [addTerms, addTerms]
    cases Coefficient.ofScalar? (R := R) t.2 with
    | none => exact ⟨rfl, rfl⟩
    | some c => exact ih (show (b₁.increase t.1 c).nvars = (b₂.increase t.1 c).nvars from hn)

private theorem apply_outcome {b₁ b₂ : Builder R} (hn : b₁.nvars = b₂.nvars) (r : Request) :
    (b₁.apply r).1.nvars = b₁.nvars ∧ (b₁.apply r).2 = (b₂.apply r).2 := by
  have hmonomial (exponents : List ℤ) : b₁.monomial? exponents = b₂.monomial? exponents := by
    rw [monomial?, monomial?, hn]
  cases r with
  | set exponents v =>
    rw [Builder.apply, Builder.apply, hmonomial]
    cases b₂.monomial? exponents with
    | error e => exact ⟨rfl, rfl⟩
    | ok m => cases Coefficient.ofOperand? (R := R) v <;> exact ⟨rfl, rfl⟩
  | addTerm exponents v =>
    rw [Builder.apply, Builder.apply, hmonomial]
    cases b₂.monomial? exponents with
    | error e => exact ⟨rfl, rfl⟩
    | ok m => cases Coefficient.ofOperand? (R := R) v <;> exact ⟨rfl, rfl⟩
  | add nvars terms =>
    by_cases heq : nvars = b₂.nvars
    · rw [Builder.apply, Builder.apply, if_pos (heq.trans hn.symm), if_pos heq]
      exact addTerms_outcome hn terms
    · rw [Builder.apply, Builder.apply, if_neg fun h => heq (h.trans hn), if_neg heq, hn]
      exact ⟨rfl, rfl⟩
  | remove exponents =>
    rw [Builder.apply, Builder.apply, hmonomial]
    cases b₂.monomial? exponents <;> exact ⟨rfl, rfl⟩

private theorem applyAll_isSome (b : Builder R) (requests : List Request) :
    (b.applyAll requests).isSome ↔ ∀ r ∈ requests, (b.apply r).2 = .ok () := by
  suffices h : ∀ b' : Builder R, b'.nvars = b.nvars →
      ((b'.applyAll requests).isSome ↔ ∀ r ∈ requests, (b.apply r).2 = .ok ()) from h b rfl
  induction requests with
  | nil => simp [applyAll]
  | cons r requests ih =>
    intro b' hn
    obtain ⟨hnvars, houtcome⟩ := apply_outcome hn r
    rw [applyAll, List.forall_mem_cons, ← houtcome]
    split
    · rename_i b'' happly
      rw [happly] at hnvars ⊢
      rw [ih b'' (hnvars.trans hn)]
      simp
    · rename_i e happly
      rw [happly]
      simp

end Outcomes

section Additions

variable [DecidableEq R] [Coefficient R] {b b' : Builder R} {f : Monomial → R}

def Request.IsAddition : Request → Prop
  | .addTerm _ _ => True
  | .add _ _ => True
  | _ => False

def Request.addedTerms : Request → List RawTerm
  | .addTerm exponents c => [(exponents, c)]
  | .add _ terms => terms.map fun t => (t.1.toInts, some t.2)
  | _ => []

private def convertedTerm (t : RawTerm) : Monomial × R :=
  (t.1.map Int.toNat, converted t.2)

/-- Whether a term is one in `nvars` variables whose coefficient can be converted. -/
private structure Fits (R : Type) [CommRing R] [Coefficient R] (nvars : ℕ) (t : RawTerm) :
    Prop where
  ofInts?_eq : Monomial.ofInts? t.1 = .ok (t.1.map Int.toNat)
  length_eq : t.1.length = nvars
  ofScalar?_eq : t.2.bind Coefficient.ofScalar? = some (converted t.2 : R)

omit [DecidableEq R] [Coefficient R] in
private theorem foldl_update (terms : List (Monomial × R)) (f : Monomial → R) (m : Monomial) :
    terms.foldl (fun f t => update f t.1 (f t.1 + t.2)) f m = f m + sumAt terms m := by
  induction terms generalizing f with
  | nil => rw [List.foldl_nil, sumAt_nil, add_zero]
  | cons t terms ih =>
    rw [List.foldl_cons, ih, sumAt_cons, update_apply, ← add_assoc]
    by_cases hm : m = t.1
    · rw [if_pos hm, if_pos hm.symm, hm]
    · rw [if_neg hm, if_neg (Ne.symm hm), add_zero]

omit [DecidableEq R] in
private theorem map_convertedTerm_toInts (terms : List (Monomial × Scalar)) :
    (terms.map fun t => (t.1.toInts, some t.2)).map convertedTerm =
      terms.map fun t => (t.1, (converted (some t.2) : R)) := by
  rw [List.map_map]
  apply List.map_congr_left
  intro t _
  simp [convertedTerm, Monomial.toInts, Function.comp_def]

omit [DecidableEq R] in
private theorem replay_addition {r : Request} (h : r.IsAddition) (f : Monomial → R) (m : Monomial) :
    r.replay f m = f m + sumAt (r.addedTerms.map convertedTerm) m := by
  cases r with
  | set => cases h
  | remove => cases h
  | addTerm exponents v => exact foldl_update [(_, _)] f m
  | add nvars terms =>
    rw [Request.addedTerms, map_convertedTerm_toInts, ← foldl_update, List.foldl_map]
    rfl

omit [DecidableEq R] in
private theorem replay_additions {requests : List Request} (h : ∀ r ∈ requests, r.IsAddition)
    (f : Monomial → R) (m : Monomial) :
    requests.foldl Request.replay f m =
      f m + sumAt ((requests.flatMap Request.addedTerms).map convertedTerm) m := by
  induction requests generalizing f with
  | nil => exact (add_zero _).symm
  | cons r requests ih =>
    obtain ⟨hr, htail⟩ := List.forall_mem_cons.mp h
    rw [List.foldl_cons, ih htail, replay_addition hr, List.flatMap_cons, List.map_append,
      sumAt_append, add_assoc]

private theorem ofScalar?_of_addTerms {terms : List (Monomial × Scalar)}
    (h : (b.addTerms terms).2 = .ok ()) :
    ∀ t ∈ terms, Coefficient.ofScalar? t.2 = some (converted (some t.2) : R) := by
  induction terms generalizing b with
  | nil => simp
  | cons t terms ih =>
    rw [addTerms] at h
    split at h
    · cases h
    · rename_i c hc
      rw [List.forall_mem_cons]
      refine ⟨?_, ih h⟩
      rw [converted, Option.bind_some, hc]
      rfl

private theorem fits_of_apply {r : Request} (hcall : r.IsCall) (h : (b.apply r).2 = .ok ()) :
    ∀ t ∈ r.addedTerms, Fits R b.nvars t := by
  cases r with
  | set => simp [Request.addedTerms]
  | remove => simp [Request.addedTerms]
  | addTerm exponents v =>
    rw [Request.addedTerms, List.forall_mem_singleton]
    rw [Builder.apply] at h
    split at h
    · cases h
    · rename_i m hm
      obtain ⟨rfl, hlength, hints⟩ := monomial?_ok hm
      split at h
      · cases h
      · rename_i c hc
        obtain ⟨hconverted, hscalar⟩ := ofOperand?_ok hc
        exact ⟨hints, by simpa using hlength, by rw [hconverted]; exact hscalar⟩
  | add nvars terms =>
    rw [Builder.apply] at h
    split at h
    · rename_i hnvars
      intro t ht
      obtain ⟨s, hs, rfl⟩ := List.mem_map.mp ht
      refine ⟨?_, ?_, ofScalar?_of_addTerms h s hs⟩
      · rw [Monomial.ofInts?_toInts]
        simp [Monomial.toInts, Function.comp_def]
      · rw [Monomial.length_toInts, length_of_isCall hcall hs, hnvars]
    · cases h

variable (R) in
/-- The polynomial of terms in the form in which builders build polynomials. -/
def fromTerms (nvars : ℕ) (terms : List RawTerm) : Except Failure (Polynomial R) :=
  if nvars = 1 then (Univariate.fromTerms terms nvars).map .univariate
  else (Multinomial.fromTerms terms nvars).map .multinomial

private theorem univariate_fromTerms {terms : List RawTerm} (h : ∀ t ∈ terms, Fits R 1 t) :
    Univariate.fromTerms (R := R) terms 1 =
      .ok (Univariate.ofTerms ((terms.map convertedTerm).map fun t => (t.1.getD 0 0, t.2))) := by
  have hcs : terms.mapM (fun t => Coefficient.ofOperand? t.2) =
      .ok (terms.map fun t => (converted t.2 : R)) := by
    refine mapM_ok fun t ht => ?_
    rw [Coefficient.ofOperand?, (h t ht).ofScalar?_eq]
  rw [Univariate.fromTerms_eq (fun t ht => (h t ht).ofInts?_eq) fun t ht => (h t ht).length_eq, hcs,
    Except.map, List.zip_map', List.map_map]
  rfl

private theorem multinomial_fromTerms {terms : List RawTerm} {nvars : ℕ} (hpos : 0 < nvars)
    (h : ∀ t ∈ terms, Fits R nvars t) :
    Multinomial.fromTerms (R := R) terms nvars =
      .ok (Multinomial.ofTerms nvars hpos (terms.map convertedTerm)) := by
  have hcs : (terms.map Prod.snd).mapM (·.bind Coefficient.ofScalar?) =
      some ((terms.map Prod.snd).map (converted (R := R))) := by
    refine mapM_eq_pure fun v hv => ?_
    obtain ⟨t, ht, rfl⟩ := List.mem_map.mp hv
    exact (h t ht).ofScalar?_eq
  rw [Multinomial.fromTerms_eq (fun t ht => (h t ht).ofInts?_eq) hpos fun t ht => (h t ht).length_eq,
    convertAll, hcs, List.map_map, Except.map, List.zip_map']
  rfl

private theorem fromTerms_eq_build {terms : List RawTerm} {nvars : ℕ} (hpos : 0 < nvars)
    (h : ∀ t ∈ terms, Fits R nvars t) :
    fromTerms R nvars terms = (⟨nvars, terms.map convertedTerm, 0⟩ : Builder R).build := by
  rw [fromTerms, build]
  by_cases hone : nvars = 1
  · subst hone
    rw [if_pos rfl, if_pos rfl]
    exact congrArg (Except.map Polynomial.univariate) (univariate_fromTerms h)
  · rw [if_neg hone, if_neg hone, dif_pos hpos, multinomial_fromTerms hpos h]
    rfl

end Additions

section Refinement

variable [DecidableEq R] [Coefficient R]

/-- A builder is the finite map of the coefficients that requests leave when they are replayed, and
builds the polynomial with these coefficients. -/
structure Refines (nvars : ℕ) (requests : List Request) (b : Builder R) : Prop where
  nodup : (b.terms.map Prod.fst).Nodup
  ne_zero : ∀ t ∈ b.terms, t.2 ≠ 0
  length_eq : ∀ t ∈ b.terms, t.1.length = nvars
  get_eq : ∀ exponents : List ℤ, exponents.length = nvars → (∀ i ∈ exponents, 0 ≤ i) →
    b.get exponents = .ok (replay requests (exponents.map Int.toNat))
  build_ok : ∃ p, b.build = .ok p ∧ p.nvars = nvars ∧ ∀ m, p.coefficient m = replay requests m

/-- Requests that add to an empty builder build the polynomial of all terms that they add, and so
does every permutation of them. -/
structure BuildsSum (b₀ : Builder R) (requests : List Request) (b : Builder R) : Prop where
  fromTerms_eq : fromTerms R b₀.nvars (requests.flatMap Request.addedTerms) = b.build
  perm : ∀ requests', requests.Perm requests' →
    ∃ b', b₀.applyAll requests' = some b' ∧ b'.build = b.build

variable {nvars : ℕ} {requests : List Request} {b : Builder R}

omit [CommRing R] [DecidableEq R] [Coefficient R] in
private theorem monomial?_eq (b : Builder R) {exponents : List ℤ}
    (hlength : exponents.length = b.nvars) (hnonneg : ∀ i ∈ exponents, 0 ≤ i) :
    b.monomial? exponents = .ok (exponents.map Int.toNat) := by
  have hall : exponents.all (0 ≤ ·) = true := by simpa using hnonneg
  rw [monomial?, Monomial.ofInts?, if_pos hall]
  simp only [bind, Except.bind, List.length_map, hlength, if_true]
  rfl

omit [CommRing R] [DecidableEq R] [Coefficient R] in
theorem monomial?_toInts {b : Builder R} {m : Monomial} (hm : m.length = b.nvars) :
    b.monomial? m.toInts = .ok m := by
  rw [monomial?, Monomial.ofInts?_toInts]
  exact if_pos hm

private theorem refines_of_applyAll (hpos : 0 < nvars) (hcalls : ∀ r ∈ requests, r.IsCall)
    (hrun : ({ nvars := nvars } : Builder R).applyAll requests = some b) :
    b.Refines nvars requests := by
  obtain ⟨rfl, hb⟩ := Holds.create.applyAll hcalls hrun
  refine ⟨hb.nodup, hb.ne_zero, hb.length_eq, ?_, ?_⟩
  · intro exponents hlength hnonneg
    rw [get, monomial?_eq b hlength hnonneg, hb.lookup_eq]
    rfl
  · obtain ⟨p, hbuild, hnvars, hcoefficient⟩ := build_ok hpos hb.length_eq
    exact ⟨p, hbuild, hnvars, fun m => (hcoefficient m).trans (hb.sumAt_terms m)⟩

private theorem fromTerms_addedTerms (hpos : 0 < nvars) (hcalls : ∀ r ∈ requests, r.IsCall)
    (hadds : ∀ r ∈ requests, r.IsAddition)
    (hrun : ({ nvars := nvars } : Builder R).applyAll requests = some b) :
    fromTerms R nvars (requests.flatMap Request.addedTerms) = b.build := by
  obtain ⟨hnvars, hb⟩ := Holds.create.applyAll hcalls hrun
  have hsome := (applyAll_isSome _ requests).mp (Option.isSome_iff_exists.mpr ⟨b, hrun⟩)
  have hfits : ∀ t ∈ requests.flatMap Request.addedTerms, Fits R nvars t := by
    intro t ht
    obtain ⟨r, hr, ht⟩ := List.mem_flatMap.mp ht
    exact fits_of_apply (hcalls r hr) (hsome r hr) t ht
  rw [fromTerms_eq_build hpos hfits]
  refine build_congr hnvars.symm ?_ hb.length_eq fun m => ?_
  · intro t ht
    obtain ⟨t, ht', rfl⟩ := List.mem_map.mp ht
    exact (List.length_map _).trans (hfits t ht').length_eq
  · rw [hb.sumAt_terms, replay_additions hadds]
    exact (zero_add _).symm

private theorem build_perm (hcalls : ∀ r ∈ requests, r.IsCall)
    (hadds : ∀ r ∈ requests, r.IsAddition)
    (hrun : ({ nvars := nvars } : Builder R).applyAll requests = some b) {requests' : List Request}
    (hperm : requests.Perm requests') :
    ∃ b' : Builder R, ({ nvars := nvars } : Builder R).applyAll requests' = some b' ∧
      b'.build = b.build := by
  have hcalls' : ∀ r ∈ requests', r.IsCall := fun r hr => hcalls r (hperm.mem_iff.mpr hr)
  have hadds' : ∀ r ∈ requests', r.IsAddition := fun r hr => hadds r (hperm.mem_iff.mpr hr)
  have hsome := (applyAll_isSome _ requests).mp (Option.isSome_iff_exists.mpr ⟨b, hrun⟩)
  obtain ⟨b', hrun'⟩ := Option.isSome_iff_exists.mp
    ((applyAll_isSome { nvars := nvars } requests').mpr fun r hr => hsome r (hperm.mem_iff.mpr hr))
  obtain ⟨hnvars, hb⟩ := Holds.create.applyAll hcalls hrun
  obtain ⟨hnvars', hb'⟩ := Holds.create.applyAll hcalls' hrun'
  refine ⟨b', hrun', build_congr (hnvars'.trans hnvars.symm) hb'.length_eq hb.length_eq fun m => ?_⟩
  have hterms := ((hperm.flatMap_right Request.addedTerms).map (convertedTerm (R := R)))
  rw [hb.sumAt_terms, hb'.sumAt_terms, replay_additions hadds, replay_additions hadds',
    sumAt_perm hterms]

/-- A builder refines the finite map of the coefficients that its calls set, increase and remove. -/
theorem create_refines {nvars : ℤ} (hn : 1 ≤ nvars) :
    ∃ b₀ : Builder R, create nvars = .ok b₀ ∧
      ∀ requests : List Request, (∀ r ∈ requests, r.IsCall) →
        ∀ b, b₀.applyAll requests = some b →
          b.Refines nvars.toNat requests ∧
          ((∀ r ∈ requests, r.IsAddition) → b₀.BuildsSum requests b) := by
  have hpos : 0 < nvars.toNat := by omega
  refine ⟨{ nvars := nvars.toNat }, if_neg (by omega), fun requests hcalls b hrun => ?_⟩
  refine ⟨refines_of_applyAll hpos hcalls hrun, fun hadds => ?_⟩
  exact ⟨fromTerms_addedTerms hpos hcalls hadds hrun,
    fun _ => build_perm hcalls hadds hrun⟩

def firstVariable (D : Domain) : AnyPolynomial :=
  ⟨D, .multinomial (Multinomial.ofTerms 2 Nat.two_pos [([1, 0], 1)])⟩

/-- Requests of which one adds a polynomial and cancels what was there. -/
def cancellation : List Request :=
  [.addTerm [1, 0] (some (.integer (-1))), AnyBuilder.addition (firstVariable .integers),
    .addTerm [0, 3] (some (.integer 5))]

theorem create_refines_cancellation :
    ∃ b₀ b : Builder ℤ, create 2 = .ok b₀ ∧ b₀.applyAll cancellation = some b ∧
      b.Refines 2 cancellation ∧ b₀.BuildsSum cancellation b := by
  have hcalls : ∀ r ∈ cancellation, r.IsCall := by
    simp only [cancellation, List.forall_mem_cons]
    exact ⟨trivial, ⟨_, rfl⟩, trivial, by simp⟩
  have hadds : ∀ r ∈ cancellation, r.IsAddition := by
    simp only [cancellation, List.forall_mem_cons]
    exact ⟨trivial, trivial, trivial, by simp⟩
  obtain ⟨b₀, hcreate, hrefines⟩ := create_refines (R := ℤ) (show (1 : ℤ) ≤ 2 by decide)
  obtain rfl : { nvars := 2 } = b₀ := Except.ok.inj hcreate
  have hrun : ({ nvars := 2 } : Builder ℤ).applyAll cancellation =
      some { nvars := 2, terms := [([0, 3], 5)], generation := 3 } := by rfl
  obtain ⟨h, hsum⟩ := hrefines _ hcalls _ hrun
  exact ⟨_, _, hcreate, hrun, h, hsum hadds⟩

end Refinement

end PolyIdeal.Builder
