import PolyIdeal.Proofs.Basis.Groebner
import PolyIdeal.Proofs.Coefficient.FieldDomain
import PolyIdeal.Proofs.Traced
import PolyIdeal.Proofs.Value.OneDomain
import PolyIdeal.Value.Timing

/-!
# Which computation a time belongs to

The clock is read twice for each ideal and order, ideal by ideal and in each of them order by order.
The list of a name has the times of all orders that go by it, so it has one time for each ideal
where a single order does.
-/

namespace PolyIdeal

/-- The time between the readings of a clock before and after computation number `k`. -/
def Clock.time? (clock : Clock) (k : ℕ) : Option Scalar := do
  let start ← clock[2 * k]?
  let finish ← clock[2 * k + 1]?
  (Clock.elapsed start finish).toOption

namespace Times

variable {times : Times} {a : String} {orders : List Order} {time : ℕ → Scalar} {count : ℕ}

def timesOf (a : String) (entries : List (String × Scalar)) : List Scalar :=
  (entries.filter fun e => e.1 = a).map Prod.snd

def recordAll (times : Times) (entries : List (String × Scalar)) : Times :=
  times.map fun (a, ts) => (a, ts ++ timesOf a entries)

/-- The entries of one ideal, from computation number `k` on. -/
def entriesFrom (orders : List Order) (time : ℕ → Scalar) (k : ℕ) : List (String × Scalar) :=
  (orders.zipIdx k).map fun (o, i) => (o.shortName, time i)

/-- The times of all computations on `count` ideals, recorded in turn. -/
def recorded (orders : List Order) (time : ℕ → Scalar) (count : ℕ) : Times :=
  (empty orders).recordAll ((List.range count).flatMap fun i =>
    entriesFrom orders time (i * orders.length))

private theorem timesOf_cons (a : String) (e : String × Scalar) (entries : List (String × Scalar)) :
    timesOf a (e :: entries) = if e.1 = a then e.2 :: timesOf a entries else timesOf a entries := by
  rw [timesOf, List.filter_cons]
  by_cases ha : e.1 = a <;> simp [ha, timesOf]

private theorem timesOf_flatMap {ι : Type} (a : String) (l : List ι)
    (f : ι → List (String × Scalar)) :
    timesOf a (l.flatMap f) = l.flatMap fun i => timesOf a (f i) := by
  rw [timesOf, List.filter_flatMap, List.map_flatMap]
  rfl

private theorem recordAll_nil (times : Times) : times.recordAll [] = times := by
  rw [recordAll]
  simp [timesOf]

private theorem recordAll_cons (times : Times) (e : String × Scalar)
    (entries : List (String × Scalar)) :
    times.recordAll (e :: entries) = (times.record e.1 e.2).recordAll entries := by
  rw [recordAll, recordAll, record, List.map_map]
  apply List.map_congr_left
  rintro ⟨a, ts⟩ -
  by_cases ha : e.1 = a
  · simp [timesOf_cons, ha]
  · simp [timesOf_cons, ha, Ne.symm ha]

private theorem recordAll_append (times : Times) (entries entries' : List (String × Scalar)) :
    times.recordAll (entries ++ entries') = (times.recordAll entries).recordAll entries' := by
  induction entries generalizing times with
  | nil => rw [recordAll_nil, List.nil_append]
  | cons e entries ih => rw [List.cons_append, recordAll_cons, recordAll_cons, ih]

private theorem map_fst_recordAll (times : Times) (entries : List (String × Scalar)) :
    (times.recordAll entries).map Prod.fst = times.map Prod.fst := by
  rw [recordAll, List.map_map]
  rfl

private theorem entriesFrom_cons (o : Order) (orders : List Order) (time : ℕ → Scalar) (k : ℕ) :
    entriesFrom (o :: orders) time k = (o.shortName, time k) :: entriesFrom orders time (k + 1) :=
  rfl

private theorem length_timesOf_entriesFrom (a : String) (orders : List Order) (time : ℕ → Scalar)
    (k : ℕ) : (timesOf a (entriesFrom orders time k)).length =
      orders.countP fun o => o.shortName = a := by
  induction orders generalizing k with
  | nil => rfl
  | cons o orders ih =>
    rw [entriesFrom_cons, timesOf_cons, List.countP_cons, ← ih (k + 1)]
    by_cases ho : o.shortName = a <;> simp [ho]

/-- The time of an order comes after those of the orders before it that go by the same name. -/
private theorem getElem?_timesOf_entriesFrom {j : ℕ} {o : Order} (ho : orders[j]? = some o)
    (ha : o.shortName = a) (time : ℕ → Scalar) (k : ℕ) :
    (timesOf a (entriesFrom orders time k))[(orders.take j).countP fun o => o.shortName = a]? =
      some (time (k + j)) := by
  induction orders generalizing j k with
  | nil => cases ho
  | cons o' orders ih =>
    rw [entriesFrom_cons, timesOf_cons]
    cases j with
    | zero =>
      obtain rfl := Option.some.inj ho
      simp [ha]
    | succ j =>
      have htail := ih (j := j) ho (k + 1)
      rw [Nat.add_right_comm, Nat.add_assoc] at htail
      rw [List.take_succ_cons, List.countP_cons]
      by_cases ho' : o'.shortName = a <;> simpa [ho'] using htail

section Empty

private theorem isSome_lookup_iff : (times.lookup a).isSome = true ↔ a ∈ times.map Prod.fst := by
  induction times with
  | nil => simp
  | cons e times ih =>
    rw [List.lookup_cons, List.map_cons, List.mem_cons, ← ih]
    by_cases ha : a = e.1
    · simp [ha]
    · rw [beq_eq_false_iff_ne.mpr ha, or_iff_right ha]

/-- Whether times are lists without entries for some names, each one once. -/
private structure IsEmptyFor (names : List String) (times : Times) : Prop where
  nodup : (times.map Prod.fst).Nodup
  mem_iff : ∀ a, a ∈ times.map Prod.fst ↔ a ∈ names
  eq_nil : ∀ a ts, (a, ts) ∈ times → ts = []

private theorem IsEmptyFor.foldl {names : List String} (h : times.IsEmptyFor names)
    (orders : List Order) :
    (orders.foldl (fun times o => if (times.lookup o.shortName).isSome then times
      else times ++ [(o.shortName, [])]) times).IsEmptyFor
        (names ++ orders.map Order.shortName) := by
  induction orders generalizing times names with
  | nil => simpa using h
  | cons o orders ih =>
    rw [List.foldl_cons, List.map_cons, List.append_cons names]
    by_cases ho : (times.lookup o.shortName).isSome = true
    · rw [if_pos ho]
      refine ih ⟨h.nodup, fun a => ?_, h.eq_nil⟩
      have hmem := (h.mem_iff _).mp (isSome_lookup_iff.mp ho)
      rw [h.mem_iff, List.mem_append, List.mem_singleton]
      exact ⟨.inl, fun ha => ha.elim id fun ha => ha ▸ hmem⟩
    · rw [if_neg ho]
      refine ih ⟨?_, fun a => ?_, ?_⟩
      · rw [List.map_append, List.nodup_append_comm]
        exact List.nodup_cons.mpr ⟨fun hmem => ho (isSome_lookup_iff.mpr hmem), h.nodup⟩
      · rw [List.map_append, List.mem_append, List.mem_append, h.mem_iff]
        simp
      · intro a ts ht
        rcases List.mem_append.mp ht with ht | ht
        · exact h.eq_nil a ts ht
        · exact (Prod.mk.inj (List.mem_singleton.mp ht)).2

private theorem isEmptyFor_empty (orders : List Order) :
    (empty orders).IsEmptyFor (orders.map Order.shortName) := by
  have hnone : IsEmptyFor [] ([] : Times) := ⟨List.nodup_nil, by simp, by simp⟩
  exact hnone.foldl orders

end Empty

private theorem map_fst_recorded (orders : List Order) (time : ℕ → Scalar) (count : ℕ) :
    (recorded orders time count).map Prod.fst = (empty orders).map Prod.fst :=
  map_fst_recordAll _ _

private theorem eq_flatMap_of_mem_recorded {ts : List Scalar}
    (h : (a, ts) ∈ recorded orders time count) :
    ts = (List.range count).flatMap fun i =>
      timesOf a (entriesFrom orders time (i * orders.length)) := by
  obtain ⟨⟨b, ts'⟩, hmem, heq⟩ := List.mem_map.mp h
  obtain ⟨rfl, rfl⟩ := Prod.mk.inj heq
  rw [(isEmptyFor_empty orders).eq_nil b ts' hmem, List.nil_append, timesOf_flatMap]

end Times

section Runs

variable {ε I : Type} {run : I → Order → Traced ε Unit} {orders : List Order} {clock : Clock}
  {time : ℕ → Scalar}

private theorem Clock.drop_of_time? {k : ℕ} {t : Scalar} (h : clock.time? k = some t) :
    ∃ start finish, clock.drop (2 * k) = start :: finish :: clock.drop (2 * (k + 1)) ∧
      Clock.elapsed start finish = .ok t := by
  obtain ⟨start, hstart, h⟩ := Option.bind_eq_some_iff.mp h
  obtain ⟨finish, hfinish, h⟩ := Option.bind_eq_some_iff.mp h
  refine ⟨start, finish, ?_, ?_⟩
  · obtain ⟨hlt, rfl⟩ := List.getElem?_eq_some_iff.mp hstart
    obtain ⟨hlt', rfl⟩ := List.getElem?_eq_some_iff.mp hfinish
    rw [List.drop_eq_getElem_cons hlt, List.drop_eq_getElem_cons hlt']
    rfl
  · cases helapsed : Clock.elapsed start finish with
    | error e =>
      rw [helapsed] at h
      cases h
    | ok t' =>
      rw [helapsed] at h
      rw [Option.some.inj h]

private theorem Clock.read_cons (reading : Scalar) (clock : Clock) :
    Clock.read (reading :: clock) = .ok (reading, clock) := rfl

private theorem result_timeIdeal_cons {ideal : I} {o : Order} {start finish t : Scalar}
    (hrun : (run ideal o).result = .ok ()) (helapsed : Clock.elapsed start finish = .ok t)
    (times : Times) :
    (timeIdeal run ideal (o :: orders) times (start :: finish :: clock)).result =
      (timeIdeal run ideal orders (times.record o.shortName t) clock).result := by
  rw [timeIdeal, Traced.result_lift_bind (Clock.read_cons start (finish :: clock))]
  dsimp only
  rw [Traced.result_bind hrun, Traced.result_lift_bind (Clock.read_cons finish clock)]
  dsimp only
  rw [Traced.result_lift_bind helapsed]

private theorem result_timeIdeal {ideal : I} (hrun : ∀ o ∈ orders, (run ideal o).result = .ok ())
    {k : ℕ}
    (htime : ∀ i, k ≤ i → i < k + orders.length → clock.time? i = some (time i)) (times : Times) :
    (timeIdeal run ideal orders times (clock.drop (2 * k))).result =
      .ok (times.recordAll (Times.entriesFrom orders time k),
        clock.drop (2 * (k + orders.length))) := by
  induction orders generalizing k times with
  | nil => exact congrArg (fun times => Except.ok (times, _)) times.recordAll_nil.symm
  | cons o orders ih =>
    obtain ⟨ho, hrun⟩ := List.forall_mem_cons.mp hrun
    rw [List.length_cons] at htime
    obtain ⟨start, finish, hdrop, helapsed⟩ :=
      Clock.drop_of_time? (htime k le_rfl (by omega))
    have htail := ih hrun (k := k + 1) (fun i hi hlt => htime i (by omega) (by omega))
      (times.record o.shortName (time k))
    rw [hdrop, result_timeIdeal_cons ho helapsed, htail, Times.entriesFrom_cons,
      Times.recordAll_cons, List.length_cons, Nat.add_right_comm, Nat.add_assoc]

private theorem result_timeIdeals {count : ℕ} {ideals : List I} (hcount : count ≤ ideals.length)
    (hrun : ∀ ideal ∈ ideals.take count, ∀ o ∈ orders, (run ideal o).result = .ok ()) {i : ℕ}
    (htime : ∀ k < (i + count) * orders.length, clock.time? k = some (time k)) (times : Times) :
    (timeIdeals run orders count ideals times (clock.drop (2 * (i * orders.length)))).result =
      .ok (times.recordAll ((List.range' i count).flatMap fun i =>
        Times.entriesFrom orders time (i * orders.length))) := by
  induction count generalizing i ideals times with
  | zero => exact congrArg Except.ok times.recordAll_nil.symm
  | succ count ih =>
    cases ideals with
    | nil => cases hcount
    | cons ideal ideals =>
      rw [List.take_succ_cons] at hrun
      obtain ⟨hideal, hrun⟩ := List.forall_mem_cons.mp hrun
      have hend : i * orders.length + orders.length ≤ (i + (count + 1)) * orders.length := by
        rw [← Nat.succ_mul]
        exact Nat.mul_le_mul_right _ (by omega)
      have hfirst := result_timeIdeal hideal
        (fun k _ hk => htime k (Nat.lt_of_lt_of_le hk hend)) times
      have htail := ih (Nat.le_of_succ_le_succ hcount) hrun (i := i + 1)
        (by rwa [Nat.add_right_comm])
        (times.recordAll (Times.entriesFrom orders time (i * orders.length)))
      rw [Nat.succ_mul i] at htail
      rw [timeIdeals, Traced.result_bind hfirst]
      dsimp only
      rw [htail, ← Times.recordAll_append, List.range'_succ, List.flatMap_cons]

private theorem result_timeOrders {count : ℕ} {ideals : List I} (hcount : count ≤ ideals.length)
    (hrun : ∀ ideal ∈ ideals.take count, ∀ o ∈ orders, (run ideal o).result = .ok ())
    (htime : ∀ k < count * orders.length, clock.time? k = some (time k)) :
    (timeOrders run ideals orders count clock).result = .ok (Times.recorded orders time count) := by
  have hresult := result_timeIdeals hcount hrun (i := 0) (by rwa [Nat.zero_add])
    (Times.empty orders)
  rw [Nat.zero_mul, ← List.range_eq_range'] at hresult
  exact hresult

end Runs

section Attribution

variable {orders : List Order} {count : ℕ} {clock : Clock} {times : Times}
  {ideals : List (List AnyPolynomial)} {choices : List OrderChoice} {config : Config}

/-- Whether the name of every order has a list with one time for each ideal, the time of the order
on the ideal. -/
structure Times.OneEach (orders : List Order) (count : ℕ) (clock : Clock) (times : Times) :
    Prop where
  nodup : (times.map Prod.fst).Nodup
  mem_names_iff : ∀ a, a ∈ times.map Prod.fst ↔ a ∈ orders.map Order.shortName
  length_eq : ∀ a ts, (a, ts) ∈ times → ts.length = count
  getElem?_eq : ∀ a ts, (a, ts) ∈ times → ∀ i < count, ∀ (j : ℕ) (o : Order),
    orders[j]? = some o → o.shortName = a → ts[i]? = clock.time? (i * orders.length + j)

/-- Whether the name of every order has a list with the times of all orders that go by it, ideal by
ideal. -/
structure Times.Attributed (orders : List Order) (count : ℕ) (clock : Clock) (times : Times) :
    Prop where
  nodup : (times.map Prod.fst).Nodup
  mem_names_iff : ∀ a, a ∈ times.map Prod.fst ↔ a ∈ orders.map Order.shortName
  length_eq : ∀ a ts, (a, ts) ∈ times →
    ts.length = count * orders.countP fun o => o.shortName = a
  getElem?_eq : ∀ a ts, (a, ts) ∈ times → ∀ i < count, ∀ (j : ℕ) (o : Order),
    orders[j]? = some o → o.shortName = a →
      ts[(i * orders.countP fun o => o.shortName = a) +
        (orders.take j).countP fun o => o.shortName = a]? =
          clock.time? (i * orders.length + j)

/-- Whether nothing gets in the way of timing: the orders are known, there are enough ideals and
their bases are found, and the clock has readings for all of them. -/
structure Times.Unhindered (ideals : List (List AnyPolynomial)) (choices : List OrderChoice)
    (orders : List Order) (count : ℕ) (clock : Clock) (config : Config) : Prop where
  resolve_ok : choices.mapM OrderChoice.resolve = .ok orders
  count_le : count ≤ ideals.length
  basis_ok : ∀ ideal ∈ ideals.take count, ∀ o ∈ orders,
    ∃ basis, (AnyBasis.groebnerBasis ideal (.given o) config).result = .ok basis
  time_isSome : ∀ k < count * orders.length, (clock.time? k).isSome

private theorem Clock.isSome_time? (h : ∀ r ∈ clock, (∃ n, r = .integer n) ∨ ∃ x, r = .real x)
    {k : ℕ} (hk : 2 * k + 1 < clock.length) : (clock.time? k).isSome := by
  have hstart := h _ (List.getElem_mem (Nat.lt_of_succ_lt hk))
  have hfinish := h _ (List.getElem_mem hk)
  rw [Clock.time?, List.getElem?_eq_getElem hk, List.getElem?_eq_getElem (Nat.lt_of_succ_lt hk)]
  obtain ⟨n, hn⟩ | ⟨x, hx⟩ := hstart <;> obtain ⟨n', hn'⟩ | ⟨x', hx'⟩ := hfinish <;>
    simp only [*] <;> rfl

private theorem Times.Unhindered.result_timed
    (h : Unhindered ideals choices orders count clock config) :
    ∃ time : ℕ → Scalar, (∀ k < count * orders.length, clock.time? k = some (time k)) ∧
      (AnyBasis.timed ideals choices count clock config).result =
        .ok (recorded orders time count) := by
  have htime (k : ℕ) (hk : k < count * orders.length) :
      clock.time? k = some ((clock.time? k).getD (.integer 0)) := by
    obtain ⟨t, ht⟩ := Option.isSome_iff_exists.mp (h.time_isSome k hk)
    rw [ht, Option.getD_some]
  refine ⟨fun k => (clock.time? k).getD (.integer 0), htime, ?_⟩
  rw [AnyBasis.timed, Traced.result_lift_bind h.resolve_ok]
  refine result_timeOrders h.count_le (fun ideal hideal o ho => ?_) htime
  obtain ⟨basis, hbasis⟩ := h.basis_ok ideal hideal o ho
  exact Traced.result_bind hbasis _

namespace Times

variable {time : ℕ → Scalar}

/-- The times of all computations are attributed to the names of the orders. -/
theorem attributed_recorded (htime : ∀ k < count * orders.length, clock.time? k = some (time k)) :
    (recorded orders time count).Attributed orders count clock := by
  have hempty := isEmptyFor_empty orders
  have hblock (a : String) (i : ℕ) := length_timesOf_entriesFrom a orders time (i * orders.length)
  refine ⟨?_, fun a => ?_, fun a ts ht => ?_, fun a ts ht i hi j o ho ha => ?_⟩
  · rw [map_fst_recorded]
    exact hempty.nodup
  · rw [map_fst_recorded]
    exact hempty.mem_iff a
  · rw [eq_flatMap_of_mem_recorded ht]
    exact length_flatMap_range _ _ _ (hblock a)
  · have hplace := getElem?_timesOf_entriesFrom ho ha time (i * orders.length)
    have hlt := (List.getElem?_eq_some_iff.mp hplace).1
    rw [hblock] at hlt
    have hk : i * orders.length + j < count * orders.length := by
      have hj := (List.getElem?_eq_some_iff.mp ho).1
      have hend := Nat.mul_le_mul_right orders.length (Nat.succ_le_of_lt hi)
      rw [Nat.succ_mul] at hend
      omega
    rw [eq_flatMap_of_mem_recorded ht, getElem?_flatMap_range _ _ _ (hblock a) hi hlt, hplace,
      htime _ hk]

private theorem Attributed.oneEach (h : times.Attributed orders count clock)
    (hnames : (orders.map Order.shortName).Nodup) : times.OneEach orders count clock := by
  have hsingle (a : String) (ha : a ∈ orders.map Order.shortName) :
      (orders.countP fun o => o.shortName = a) = 1 := by
    rw [← List.count_eq_one_of_mem hnames ha, List.count, List.countP_map]
    exact List.countP_congr fun o _ => by simp
  refine ⟨h.nodup, h.mem_names_iff, fun a ts ht => ?_, fun a ts ht i hi j o ho ha => ?_⟩
  · have hmem := (h.mem_names_iff a).mp (List.mem_map.mpr ⟨_, ht, rfl⟩)
    rw [h.length_eq a ts ht, hsingle a hmem, Nat.mul_one]
  · have hplace := h.getElem?_eq a ts ht i hi j o ho ha
    have hone := hsingle a (List.mem_map.mpr ⟨o, List.mem_of_getElem? ho, ha⟩)
    have hfrom : 0 < (orders.drop j).countP fun o => o.shortName = a :=
      List.countP_pos_iff.mpr ⟨o, List.mem_of_getElem? (i := 0) (by rwa [List.getElem?_drop]),
        by simpa using ha⟩
    have hsplit : ((orders.take j).countP fun o => o.shortName = a) +
        (orders.drop j).countP (fun o => o.shortName = a) = 1 := by
      rw [← List.countP_append, List.take_append_drop, hone]
    have hbefore : ((orders.take j).countP fun o => o.shortName = a) = 0 := by omega
    rwa [hbefore, hone, Nat.mul_one, Nat.add_zero] at hplace

end Times

/-- Without hindrance the times of all computations are attributed to the names of the orders. If
these are different, each of them has one time for each ideal. -/
theorem timed_attributed (h : Times.Unhindered ideals choices orders count clock config) :
    ∃ times, (AnyBasis.timed ideals choices count clock config).result = .ok times ∧
      times.Attributed orders count clock ∧
      ((orders.map Order.shortName).Nodup → times.OneEach orders count clock) := by
  obtain ⟨time, htime, hresult⟩ := h.result_timed
  have hattributed := Times.attributed_recorded htime
  exact ⟨_, hresult, hattributed, hattributed.oneEach⟩

section Axis

open FieldDomain

def abscissa : Polynomial Domain.rationals.Elem :=
  .multinomial (Multinomial.ofTerms 2 Nat.two_pos [([1, 0], 1)])

def axis : List AnyPolynomial :=
  ofDomain .rationals [abscissa]

def ticks : Clock :=
  (List.range 4).map fun k : ℕ => .integer k

private theorem unhindered_axis (o o' : Order) (h : o.accepts 2 = true) (h' : o'.accepts 2 = true) :
    Times.Unhindered [axis] [.given o, .given o'] [o, o'] 1 ticks {} where
  resolve_ok := rfl
  count_le := le_rfl
  basis_ok := by
    intro ideal hideal o'' ho
    obtain rfl := List.mem_singleton.mp hideal
    have haccepts : o''.accepts 2 = true := by
      rcases List.mem_pair.mp ho with rfl | rfl
      · exact h
      · exact h'
    have hn : ∀ g ∈ [abscissa], g.nvars = 2 := List.forall_mem_singleton.mpr rfl
    have htol : ({} : Config).tolerance = none := rfl
    obtain ⟨basis, hbasis, -⟩ := groebnerBasis_ok haccepts hn htol
    exact ⟨_, AnyBasis.groebnerBasis_ok hbasis⟩
  time_isSome k hk := by
    refine Clock.isSome_time? (fun r hr => ?_) ?_
    · obtain ⟨k, -, rfl⟩ := List.mem_map.mp hr
      exact .inl ⟨k, rfl⟩
    · have hk' : k < 1 * 2 := hk
      rw [ticks, List.length_map, List.length_range]
      omega

theorem timed_attributed_axis :
    Times.Unhindered [axis] [.given .lex, .given .revlex] [.lex, .revlex] 1 ticks {} ∧
      ∃ times, (AnyBasis.timed [axis] [.given .lex, .given .revlex] 1 ticks {}).result =
          .ok times ∧
        times.Attributed [.lex, .revlex] 1 ticks ∧ times.OneEach [.lex, .revlex] 1 ticks := by
  have h := unhindered_axis .lex .revlex rfl rfl
  obtain ⟨times, hresult, hattributed, hone⟩ := timed_attributed h
  exact ⟨h, times, hresult, hattributed, hone (by decide)⟩

/-- Whether timing without hindrance always gives one time for each ideal to the name of every
order. -/
def KeepsOneTimeEach : Prop :=
  ∀ ideals choices orders count clock config,
    Times.Unhindered ideals choices orders count clock config →
      ∃ times, (AnyBasis.timed ideals choices count clock config).result = .ok times ∧
        times.OneEach orders count clock

/-- Two arrangements of the variables go by one name, and its list has a time for each of them. -/
theorem not_keepsOneTimeEach : ¬KeepsOneTimeEach := by
  intro hkeeps
  have h := unhindered_axis (.permuted ⟨[0, 1], by decide⟩) (.permuted ⟨[1, 0], by decide⟩) rfl rfl
  obtain ⟨times, hresult, hone⟩ := hkeeps _ _ _ _ _ _ h
  obtain ⟨time, htime, hresult'⟩ := h.result_timed
  have hall := Times.attributed_recorded htime
  rw [← Except.ok.inj (hresult.symm.trans hresult')] at hall
  have hmem := (hall.mem_names_iff "permlex").mpr List.mem_cons_self
  obtain ⟨⟨a, ts⟩, ht, rfl⟩ := List.mem_map.mp hmem
  have hlength := (hone.length_eq _ ts ht).symm.trans (hall.length_eq _ ts ht)
  exact absurd hlength (by decide)

end Axis

end Attribution

end PolyIdeal
