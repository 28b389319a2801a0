import ExactAlgebra.Proofs.Differentiation
import ExactAlgebra.Proofs.ReliableAlgebra
import Mathlib

/-! Derivatives are reliable. -/
namespace ExactAlgebra
open Engine

namespace Expr.Tidy

variable {a b e u : Expr} {x name : String}

/-- A function of the session called on a tidy argument. -/
theorem apply (tidy : Tidy u) (named : Identifier name ∧ name ≠ "sqrt") : Reliable (Engine.apply name u) :=
  Alike.apply named.1 named.2 tidy

theorem oneMinusSquare (tidy : Tidy u) (p : Rat) : Tidies (u.oneMinusSquare p) :=
  (tidy.powRat 2).bind fun _ tidySquare => ((number 1).sub tidySquare).bind fun _ tidyDifference =>
    tidyDifference.powRat p

theorem derivativeRule {rule : Expr → Engine Expr} (found : derivativeRule? name = some rule) (tidy : Tidy u) :
    Reliable (rule u) := by
  unfold derivativeRule? at found
  split at found <;> cases found
  · exact tidy.apply (by decide)
  · exact (tidy.apply (by decide)).bind fun result tidyResult => .pure tidyResult.neg
  · exact (tidy.apply (by decide)).bind fun result tidyResult => (tidyResult.powRat _).lift
  · exact (tidy.oneMinusSquare _).lift
  · exact (tidy.oneMinusSquare _).lift.bind fun result tidyResult => .pure tidyResult.neg
  · exact (tidy.powRat 2).lift.bind fun square tidySquare => ((number 1).add tidySquare).lift.bind
      fun sum tidySum => tidySum.inv.lift
  · exact tidy.apply (by decide)
  · exact tidy.apply (by decide)
  · exact (tidy.apply (by decide)).bind fun result tidyResult => (tidyResult.powRat _).lift
  · exact (tidy.powRat 2).lift.bind fun square tidySquare => (tidySquare.add (number 1)).lift.bind
      fun sum tidySum => (tidySum.powRat _).lift
  · exact (tidy.powRat 2).lift.bind fun square tidySquare => (tidySquare.sub (number 1)).lift.bind
      fun difference tidyDifference => (tidyDifference.powRat _).lift
  · exact (tidy.powRat 2).lift.bind fun square tidySquare => ((number 1).sub tidySquare).lift.bind
      fun difference tidyDifference => tidyDifference.inv.lift
  · exact tidy.inv.lift
  · exact (tidy.apply (by decide)).bind fun result tidyResult => (tidy.div tidyResult).lift
  · refine (bare (by decide)).sqrt.lift.bind fun root tidyRoot => ((number 2).div tidyRoot).lift.bind fun c tidyC => ?_
    refine (tidy.powRat 2).lift.bind fun square tidySquare => ?_
    exact ((bare (by decide)).pow tidySquare.neg).lift.bind fun power tidyPower => (tidyC.mul tidyPower).lift

theorem inertDerivative (named : Identifier x) (called : Identifier name ∧ name ≠ "sqrt") {args : List Expr}
    (tidy : ∀ a ∈ args, Tidy a) : Tidy (Expr.inertDerivative x name args) :=
  inert (by decide) (by decide) <| allTidy_cons.mpr
    ⟨inert called.1 called.2 tidy, allTidy_singleton (bare named)⟩

theorem deriveCall (named : Identifier x) (called : Identifier name ∧ name ≠ "sqrt") {args : List Expr}
    (tidy : ∀ a ∈ args, Tidy a) {inner : Engine Expr} (reliable : Reliable inner) :
    Reliable (Expr.deriveCall x name args inner) := by
  have unevaluated := inertDerivative named called tidy
  unfold Expr.deriveCall
  split
  next u =>
    split
    next rule found =>
      refine (derivativeRule found (tidy u (by simp))).bind fun outer tidyOuter => ?_
      exact reliable.bind fun slope tidySlope => (tidyOuter.mul tidySlope).lift
    next => exact .pure unevaluated
  next u v =>
    refine .pure ?_
    split
    · exact tidy u (by simp)
    · exact unevaluated
  next => exact .pure unevaluated

theorem derivePower (tidy : Tidy e) (c p : Rat) {inner : Engine Expr} (reliable : Reliable inner) :
    Reliable (Expr.derivePower c e p inner) := by
  unfold Expr.derivePower
  split
  · exact reliable.bind fun slope tidySlope => .pure (tidySlope.scale c)
  · refine (tidy.powRat (p - 1)).lift.bind fun power tidyPower => ?_
    refine reliable.bind fun slope tidySlope => ?_
    exact ((tidyPower.scale p).mul tidySlope).lift.bind fun result tidyResult => .pure (tidyResult.scale c)

theorem withOthers {factors : List Expr} (tidy : ∀ f ∈ factors, Tidy f) (total : Tidy e)
    {derived : Engine Expr × ℕ} (reliable : Reliable derived.1) : Reliable (Expr.withOthers factors e derived) := by
  refine reliable.bind fun term tidyTerm => ?_
  split
  · exact .pure total
  · refine (tidyTerm.mulAll fun f member => tidy f (List.mem_of_mem_eraseIdx member)).lift.bind
      fun product tidyProduct => ?_
    exact (total.add tidyProduct).lift

theorem derive (named : Identifier x) (tidy : Tidy e) : Reliable (Expr.derive x e) := by
  have none : Reliable (return zero : Engine Expr) := .pure (number 0)
  induction e using Expr.induction with
  | number => exact none
  | symbol c name p =>
    rw [Expr.derive]
    split
    · exact ((bare named).powRat (p - 1)).lift.bind fun power tidyPower => .pure ((tidyPower.scale p).scale c)
    · exact none
  | call c name args p ih =>
    have called : Identifier name ∧ name ≠ "sqrt" := ⟨tidy.formed.2.2.1, tidy.formed.2.2.2.1⟩
    rw [Expr.derive, derivatives_eq]
    split
    · refine (inert called.1 called.2 tidy.args).derivePower c p (deriveCall named called tidy.args ?_)
      cases args with
      | nil => exact none
      | cons u rest => exact ih u List.mem_cons_self (tidy.args u List.mem_cons_self)
    · exact none
  | sum c terms p ih =>
    rw [derive_sum]
    split
    · refine tidy.plain.derivePower _ p (Alike.foldlM (number 0) fun total tidyTotal t member => ?_)
      have inside := (sortTerms_perm terms).mem_iff.mp member
      exact (ih t inside (tidy.terms t inside)).bind fun slope tidySlope => (tidyTotal.add (tidySlope.scale _)).lift
    · exact none
  | product c factors ih =>
    rw [derive_product]
    split
    · refine Alike.bind (Alike.foldlM (number 0) fun total tidyTotal item member => ?_)
        fun total (tidyTotal : Tidy total) => .pure (tidyTotal.scale c)
      have inside : item.1 ∈ factors := List.fst_mem_of_mem_zipIdx member
      exact withOthers tidy.each tidyTotal (ih item.1 inside (tidy.each item.1 inside))
    · exact none
  | exponential c base exponent ihBase ihExponent =>
    rw [Expr.derive]
    split
    · refine (ihExponent tidy.exponent).bind fun slope tidySlope => ?_
      refine (tidy.base.apply (by decide)).bind fun log tidyLog => ?_
      refine (tidySlope.mul tidyLog).lift.bind fun rate tidyRate => ?_
      split
      · refine (ihBase tidy.base).bind fun slope tidySlope => ?_
        refine (tidySlope.div tidy.base).lift.bind fun relative tidyRelative => ?_
        refine (tidy.exponent.mul tidyRelative).lift.bind fun share tidyShare => ?_
        exact (tidyRate.add tidyShare).lift.bind fun rate tidyRate => (tidy.mul tidyRate).lift
      · exact (tidy.mul tidyRate).lift
    · exact none
  | foreign => exact tidy.formed.elim

theorem deriveTimes (named : Identifier x) (tidy : Tidy e) (n : ℕ) : Reliable (Expr.deriveTimes x n e) := by
  induction n generalizing e with
  | zero => exact .pure tidy
  | succ n ih =>
    rw [Expr.deriveTimes]
    split
    · exact .pure tidy
    · exact (tidy.derive named).bind fun slope tidySlope => ih tidySlope

/-- The unknown that is given, or else the first one that occurs, is an identifier. -/
theorem unknown (tidy : Tidy e) {given : Option String} (named : ∀ x ∈ given, Identifier x)
    (found : given.or e.freeNames.head? = some x) : Identifier x := by
  rcases Option.or_eq_some_iff.mp found with here | ⟨-, first⟩
  · exact named x here
  · exact tidy.freeNames x (List.mem_of_mem_head? first)

theorem diff (tidy : Tidy e) {given : Option String} (named : ∀ x ∈ given, Identifier x) (n : ℤ) :
    Reliable (e.diff given n) := by
  have steps {x : String} := tidy.unknown (x := x) named
  unfold Expr.diff
  refine Alike.guarded ?_
  generalize given.or e.freeNames.head? = found at steps ⊢
  have result : Reliable (found.elim (return if n = 0 then e else zero)
      fun x => Expr.deriveTimes x n.toNat e : Engine Expr) := by
    cases found with
    | none =>
      refine .pure ?_
      split
      · exact tidy
      · exact number 0
    | some x => exact tidy.deriveTimes (steps rfl) _
  dsimp only
  split
  · exact .throw_bind _
  cases found <;> split
  · exact Alike.lift_bind fun _ _ => result
  · exact result
  · exact Alike.lift_bind fun _ _ => result
  · exact result

end Expr.Tidy

namespace Value
open ExactAlgebra.Expr

variable {e : Expr} {x : String} {given : Option String}

theorem unknown?_expr (tidy : Tidy e) (named : ∀ x ∈ given, Identifier x) {found : Option String}
    (returned : (Value.expr e).unknown? given = .ok found) : ∀ x ∈ found, Identifier x := by
  unfold Value.unknown? at returned
  cases given with
  | some x =>
    cases returned
    exact named
  | none =>
    obtain ⟨names, listed, returned⟩ := Outcome.bind_ok returned
    cases returned
    obtain ⟨_, _, listed⟩ := Outcome.bind_ok listed
    cases listed
    exact fun x first => tidy.freeNames x (List.mem_of_mem_head? first)

theorem reliable_diffExpr (tidy : Tidy e) (named : ∀ x ∈ given, Identifier x) (order : Datum) :
    Reliable (diffExpr e given order) := by
  refine Alike.guarded (Alike.lift_bind fun below _ => ?_)
  dsimp only
  split
  · exact .throw_bind _
  refine Alike.lift_bind fun found returned => ?_
  have known := unknown?_expr tidy named returned
  cases found with
  | none =>
    refine .pure ?_
    split
    · exact Tidy.number 0
    · exact tidy
  | some x =>
    refine Alike.lift_bind fun n _ => tidy.diff (fun y same => ?_) n
    obtain rfl := Option.some.inj same
    exact known _ rfl

end Value

end ExactAlgebra
