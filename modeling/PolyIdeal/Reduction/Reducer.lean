import PolyIdeal.Order.WellFounded
import PolyIdeal.Reduction.Event
import PolyIdeal.Traced

/-!
# Reduction modulo a basis

A step cancels the highest reducible monomial of a polynomial with the first basis element that can
cancel it. A normal form is reached by steps; since a step changes nothing above the monomial that
it cancels, the next one needs to look only below it.
-/

namespace PolyIdeal

/-- What cancels monomials: a polynomial, or one over other coefficients, which can only be in the
way. -/
inductive Divisor (R : Type) [Zero R]
  | polynomial (g : Polynomial R) (lm : Monomial) (lc : R)
  | foreign (lm : Monomial) (obstacle : R → Option Failure)

namespace Divisor

variable {R : Type} [Zero R]

def leadingMonomial : Divisor R → Monomial
  | polynomial _ lm _ => lm
  | foreign lm _ => lm

end Divisor

structure Reducer (R : Type) [Zero R] where
  order : Order
  tolerance : Option Tolerance
  /-- The number of variables of the basis, unless it is empty. -/
  nvars : Option Nat
  divisors : List (Divisor R)

def distinctArities (ns : List Nat) : List Nat :=
  (ns.mergeSort (· ≤ ·)).foldr (fun n rest => if rest.head? = some n then rest else n :: rest) []

/-- Refuses polynomials in different numbers of variables. -/
def commonArity (ns : List Nat) : Except Failure (Option Nat) :=
  match distinctArities ns with
  | [] => .ok none
  | [n] => .ok (some n)
  | ns => .error (.invalid (.basisArities ns))

namespace Reducer

variable {R : Type} [Zero R] [One R] [DecidableEq R] [Add R] [Sub R] [Mul R] [Neg R] [Coefficient R]

/-- The leading data of a basis element, which must not be zero. -/
def divisor (order : Order) (g : Polynomial R) : Except Failure (Divisor R) :=
  if g.isZero then .error (.invalid .zeroDivisor)
  else (g.leadingTerm order).map fun (lm, lc) => .polynomial g lm lc

/-- A polynomial with its leading data, found once. -/
structure Element (R : Type) [Zero R] where
  polynomial : Polynomial R
  divisor : Except Failure (Divisor R)

def element (order : Order) (g : Polynomial R) : Element R :=
  ⟨g, divisor order g⟩

/-- The monomial that the element can cancel whatever its coefficient is. -/
def Element.monomial? (e : Element R) : Option Monomial :=
  match e.divisor with
  | .ok (.polynomial _ lm lc) => (Coefficient.exquo? 1 lc).map fun _ => lm
  | _ => none

def ofElements (order : Order) (tolerance : Option Tolerance) (basis : List (Element R)) :
    Except Failure (Reducer R) := do
  let divisors ← basis.mapM Element.divisor
  let nvars ← commonArity (basis.map fun e => e.polynomial.nvars)
  return { order, tolerance, nvars, divisors }

def ofBasis (order : Order) (tolerance : Option Tolerance) (basis : List (Polynomial R)) :
    Except Failure (Reducer R) :=
  ofElements order tolerance (basis.map (element order))

/-- What is left of `f` after the subtraction `h` of a multiple of `g` that was to cancel `m`. -/
def cancelled (tolerance : Option Tolerance) (f g h : Polynomial R) (m : Monomial) :
    Except Failure (Polynomial R) :=
  let c := h.coefficient m
  if c = 0 then .ok h
  else
    let leftover := Failure.arithmetic (.leftover f.text g.text (Coefficient.text c) m.toInts)
    match tolerance with
    | none => .error leftover
    | some t => do
      if ← Coefficient.within t c then return h.without m
      else throw leftover

/-- Cancels the monomial `m` of `f`, whose coefficient is `c`, by the first divisor that can. -/
def cancel? (tolerance : Option Tolerance) (f : Polynomial R) (m : Monomial) (c : R) :
    List (Divisor R) → Except Failure (Option (Polynomial R × Polynomial R))
  | [] => .ok none
  | d :: ds =>
    match Monomial.div? m d.leadingMonomial with
    | none => cancel? tolerance f m c ds
    | some shift =>
      match d with
      | .foreign _ obstacle =>
        match obstacle c with
        | some e => .error e
        | none => cancel? tolerance f m c ds
      | .polynomial g _ lc =>
        match Coefficient.exquo? c lc with
        | none => cancel? tolerance f m c ds
        | some q => do
          let h ← f.sub (← g.mulTerm shift q)
          return some (g, ← cancelled tolerance f g h m)

/-- One elementary reduction of a polynomial: the monomial, the divisor and the outcome. -/
structure Cancellation (R : Type) [Zero R] (ms : List Monomial) where
  monomial : Monomial
  mem : monomial ∈ ms
  divisor : Polynomial R
  outcome : Polynomial R

/-- Cancels the first of the monomials `ms` that can be cancelled. -/
def cancelFirst? (r : Reducer R) (f : Polynomial R) :
    (ms : List Monomial) → Except Failure (Option (Cancellation R ms))
  | [] => .ok none
  | m :: ms =>
    match cancel? r.tolerance f m (f.coefficient m) r.divisors with
    | .error e => .error e
    | .ok (some (g, h)) => .ok (some ⟨m, List.mem_cons_self, g, h⟩)
    | .ok none =>
      match cancelFirst? r f ms with
      | .error e => .error e
      | .ok none => .ok none
      | .ok (some s) => .ok (some { s with mem := List.mem_cons_of_mem _ s.mem })

/-- Refuses polynomials that do not fit the basis or the order. -/
def check (r : Reducer R) (f : Polynomial R) : Except Failure Unit := do
  match r.nvars with
  | some n => if f.nvars ≠ n then throw (.invalid (.reductionArity f.nvars n))
  | none => pure ()
  f.monomials.forM fun m => r.order.check m.toInts

/-- One elementary reduction, or nothing if `f` is in normal form. -/
def step? (r : Reducer R) (f : Polynomial R) : Traced (Event R) (Option (Polynomial R)) :=
  match r.check f with
  | .error e => .fail e
  | .ok () =>
    match r.cancelFirst? f (r.order.descending f.monomials) with
    | .error e => .fail e
    | .ok none => pure none
    | .ok (some s) => .note (.reduced f s.monomial s.divisor s.outcome) (pure (some s.outcome))

/-- The normal form of `f`, where all that can be cancelled lies below `bound`. -/
def normalFormBelow (r : Reducer R) (bound : Monomial) (f : Polynomial R) :
    Traced (Event R) (Polynomial R) :=
  match r.cancelFirst? f ((r.order.descending f.monomials).filter (r.order.Below · bound)) with
  | .error e => .fail e
  | .ok none => pure f
  | .ok (some s) =>
    have := (List.mem_filter.mp s.mem).2
    .note (.reduced f s.monomial s.divisor s.outcome) (r.normalFormBelow s.monomial s.outcome)
  termination_by r.order.below_wf.wrap bound
  decreasing_by exact of_decide_eq_true this

def normalForm (r : Reducer R) (f : Polynomial R) : Traced (Event R) (Polynomial R) :=
  match r.check f with
  | .error e => .fail e
  | .ok () =>
    match r.cancelFirst? f (r.order.descending f.monomials) with
    | .error e => .fail e
    | .ok none => pure f
    | .ok (some s) =>
      .note (.reduced f s.monomial s.divisor s.outcome) (r.normalFormBelow s.monomial s.outcome)

/-- The outcomes of repeated steps up to a normal form, or at most `limit` of them. -/
def chain (r : Reducer R) (f : Polynomial R) : Nat → Traced (Event R) (List (Polynomial R))
  | 0 => pure []
  | limit + 1 => do
    match ← r.step? f with
    | none => return []
    | some h => return h :: (← r.chain h limit)

end Reducer

def reduce {R : Type} [Zero R] [One R] [DecidableEq R] [Add R] [Sub R] [Mul R] [Neg R]
    [Coefficient R] (f : Polynomial R) (basis : List (Polynomial R)) (order : Order)
    (tolerance : Option Tolerance) : Traced (Event R) (Polynomial R) :=
  match Reducer.ofBasis order tolerance basis with
  | .error e => .fail e
  | .ok r => r.normalForm f

end PolyIdeal
