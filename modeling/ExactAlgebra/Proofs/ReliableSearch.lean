import ExactAlgebra.Calculus.Definite
import ExactAlgebra.Calculus.Limit
import ExactAlgebra.Proofs.ReliableTransform
import Mathlib

/-! Searches on real functions, limits, definite integrals and finite series are reliable. -/
namespace ExactAlgebra
open Engine

namespace Numeric

variable {f slope : RealFunction}

theorem reliable_measure (name : Setting) : Reliable (measure name) :=
  (Alike.setting name).bind fun _ _ => .lift fun _ _ => trivial

theorem reliable_newtonSteps (epsilon : Datum) (n : ℕ) (x : Float) :
    Reliable (newtonSteps f slope epsilon n x) := by
  induction n generalizing x with
  | zero => exact .pure allTidy_none
  | succ n ih =>
    refine Alike.poll.bind fun _ _ => Alike.lift_bind fun value _ => Alike.lift_bind fun rate _ => ?_
    split
    next y d =>
      refine Alike.ite (fun _ => .pure allTidy_none) fun _ => Alike.lift_bind fun bound _ => ?_
      dsimp only
      refine Alike.ite (fun _ => .pure fun _ _ => trivial) fun _ => ?_
      exact Alike.ite (fun _ => .pure fun _ _ => trivial) fun _ => ih _
    next => exact .pure allTidy_none

theorem reliable_newton? (start : Float) : Reliable (newton? f slope start) :=
  (Alike.count _).bind fun _ _ => (Alike.setting _).bind fun _ _ => reliable_newtonSteps _ _ _

theorem reliable_bisectionSteps (epsilon : Datum) (below : Bool) (n : ℕ) (low high : Float) :
    Reliable (bisectionSteps f epsilon below n low high) := by
  induction n generalizing low high with
  | zero => exact .throw _
  | succ n ih =>
    refine Alike.poll.bind fun _ _ => Alike.lift_bind fun value _ => ?_
    refine Alike.ite (fun _ => .pure trivial) fun _ => Alike.lift_bind fun bound _ => ?_
    refine Alike.ite (fun _ => .pure trivial) fun _ => ?_
    exact Alike.ite (fun _ => ih _ _) fun _ => ih _ _

theorem reliable_bisection (low high : Float) : Reliable (bisection f low high) := by
  refine Alike.lift_bind fun value _ => Alike.ite (fun _ => .pure trivial) fun _ => ?_
  exact (Alike.count _).bind fun _ _ => (Alike.setting _).bind fun _ _ => reliable_bisectionSteps _ _ _ _ _

/-- A search that does not converge meets no limit of the session. -/
theorem poleOrIterations_of_isLimit (fault : Fault) (limit : IsLimit fault) :
    (fault.isPole || fault.kind == .iterations) = false := by
  rcases limit with kind | kind | kind <;> simp [Fault.isPole, kind]

theorem isPole_of_isLimit (fault : Fault) (limit : IsLimit fault) : fault.isPole = false := by
  rcases limit with kind | kind | kind <;> simp [Fault.isPole, kind]

theorem iterations_of_isLimit (fault : Fault) (limit : IsLimit fault) : (fault.kind == .iterations) = false := by
  rcases limit with kind | kind | kind <;> simp [kind]

theorem reliable_bisection? (a b : Float) : Reliable (bisection? f a b) :=
  Alike.attempt poleOrIterations_of_isLimit (reliable_bisection a b)

theorem reliable_rootBetween (a b : Float) : Reliable (rootBetween f slope a b) := by
  refine (reliable_newton? _).bind fun root? _ => ?_
  split
  · exact reliable_bisection? a b
  · refine Alike.ite (fun _ => .pure fun _ _ => trivial) fun _ => ?_
    refine Alike.bind (Alike.attempt iterations_of_isLimit (Alike.attempt isPole_of_isLimit (reliable_bisection a b)))
      fun first tidy => ?_
    split
    · exact .pure fun _ _ => trivial
    · exact reliable_bisection? a b

theorem reliable_scan (before : Option Sample) (samples : List Sample) :
    Reliable (scan f slope before samples) := by
  have floats (xs : List Float) : AllTidy xs := fun _ _ => trivial
  induction samples generalizing before with
  | nil => exact .pure (floats _)
  | cons first rest ih =>
    cases rest with
    | nil => exact .pure (floats _)
    | cons second rest =>
      obtain ⟨a, fa⟩ := first
      obtain ⟨b, fb⟩ := second
      have others (found : List Float) : Reliable (do
          return found ++ (← scan f slope (some (a, fa)) ((b, fb) :: rest)) : Engine (List Float)) :=
        (ih _).bind fun _ _ => .pure (floats _)
      have nothing : Reliable (do
          let found ← pure []
          return found ++ (← scan f slope (some (a, fa)) ((b, fb) :: rest)) : Engine (List Float)) :=
        Alike.bind (.pure (floats _)) fun found _ => others found
      unfold scan
      refine Alike.poll.bind fun _ _ => ?_
      split
      next ya yb _ _ =>
        refine Alike.ite (fun _ => Alike.bind (.pure (floats _)) fun found _ => others found) fun _ => ?_
        refine Alike.ite (fun _ => (reliable_rootBetween a b).bind fun _ _ => ?_) fun _ => ?_
        · exact Alike.bind (.pure (floats _)) fun found _ => others found
        split
        · refine Alike.ite (fun _ => (reliable_newton? a).bind fun _ _ => ?_) fun _ => nothing
          exact Alike.bind (.pure (floats _)) fun found _ => others found
        · exact nothing
      next => exact nothing

theorem reliable_findRealRoots : Reliable (findRealRoots f slope) := by
  have floats (xs : List Float) : AllTidy xs := fun _ _ => trivial
  refine (reliable_measure _).bind fun radius _ => (reliable_measure _).bind fun step _ => ?_
  refine Alike.ite (fun _ => .throw_bind _) fun _ => Alike.lift_bind fun whole _ => ?_
  dsimp only
  refine Alike.ite (fun _ => .throw_bind _) fun _ => ?_
  have sample (x : Float) : Reliable (do return (x, ← liftM (trial f x)) : Engine Sample) :=
    Alike.lift_bind fun _ _ => .pure ⟨trivial, fun _ _ => trivial⟩
  refine (Alike.mapM fun x _ => sample x).bind fun samples _ => (reliable_scan _ _).bind fun candidates _ => ?_
  refine (Alike.setting _).bind fun tolerance _ => Alike.lift_bind fun roots _ => ?_
  exact (Alike.count _).bind fun _ _ => .pure (floats _)

theorem reliable_refine (exhausted : Fault) (depth : ℕ) (a b fa fm fb whole : Float)
    (tolerance : Except Fault Float) : Reliable (refine f exhausted depth a b fa fm fb whole tolerance) := by
  induction depth generalizing a b fa fm fb whole tolerance with
  | zero =>
    refine Alike.poll.bind fun _ _ => Alike.lift_bind fun _ _ => Alike.lift_bind fun _ _ => ?_
    refine Alike.lift_bind fun _ _ => Alike.ite (fun _ => .pure trivial) fun _ => .throw _
  | succ depth ih =>
    refine Alike.poll.bind fun _ _ => Alike.lift_bind fun _ _ => Alike.lift_bind fun _ _ => ?_
    refine Alike.lift_bind fun _ _ => Alike.ite (fun _ => .pure trivial) fun _ => ?_
    exact (ih _ _ _ _ _ _ _).bind fun _ _ => (ih _ _ _ _ _ _ _).bind fun _ _ => .pure trivial

theorem reliable_quadrature (low high : Float) : Reliable (quadrature f low high) := by
  refine Alike.lift_bind fun _ _ => Alike.lift_bind fun _ _ => Alike.lift_bind fun _ _ => ?_
  exact (Alike.setting _).bind fun _ _ => (Alike.setting _).bind fun _ _ => reliable_refine _ _ _ _ _ _ _ _ _

theorem reliable_toRational (x : Float) : Reliable (toRational x) :=
  (Alike.setting _).bind fun _ _ => .lift fun _ _ => trivial

end Numeric

namespace Expr.Tidy

variable {a b e : Expr} {x : String}

theorem valueAt? (tidy : Tidy e) {point : Expr} (tidyPoint : Tidy point) (x : String) :
    Reliable (e.valueAt? x point) := by
  refine Alike.attempt ?_ ((tidy.substitute tidyPoint).bind fun _ value => value.expand)
  rintro fault (kind | kind | kind) <;> simp [Fault.isUndefined, Fault.isPole, kind]

theorem limitOfQuotient {point : Expr} (tidyPoint : Tidy point) (named : Identifier x) (n : ℕ)
    (tidyA : Tidy a) (tidyB : Tidy b) : Reliable (Expr.limitOfQuotient e x point n a b) := by
  have known : ∀ y ∈ some x, Identifier y := fun y same => Option.some.inj same ▸ named
  induction n generalizing a b with
  | zero => exact .pure allTidy_none
  | succ n ih =>
    refine Alike.poll.bind fun _ _ => (tidyA.valueAt? tidyPoint x).bind fun top? tidyTop => ?_
    refine (tidyB.valueAt? tidyPoint x).bind fun bottom? tidyBottom => ?_
    split
    next top bottom =>
      refine Alike.ite (fun _ => ?_) fun _ => Alike.ite (fun _ => ?_) fun _ => ?_
      · exact (Tidy.div (allTidy_some.mp tidyTop) (allTidy_some.mp tidyBottom)).lift.bind fun _ quotient =>
          .pure (allTidy_some.mpr quotient)
      · exact Alike.lift_bind fun _ _ => Alike.lift_bind fun _ _ => .throw _
      · exact (tidyA.diff known 1).bind fun _ top => (tidyB.diff known 1).bind fun _ bottom => ih top bottom
    next => exact .pure allTidy_none

theorem limitAtInfinity (tidy : Tidy e) (x : String) : Reliable (e.limitAtInfinity x) := by
  refine tidy.together.bind fun parts ⟨tidyTop, tidyBottom⟩ => ?_
  refine (tidyTop.coeffs? x).bind fun top? top => (tidyBottom.coeffs? x).bind fun bottom? bottom => ?_
  have last {cs : List Expr} (tidy : AllTidy cs) : Tidy (cs.getLastD zero) := by
    rw [List.getLastD_eq_getLast?]
    cases found : cs.getLast? with
    | none => exact number 0
    | some c => exact tidy c (List.mem_of_getLast? found)
  split
  next cs ds =>
    refine Alike.ite (fun _ => .pure (allTidy_some.mpr (number 0))) fun _ => Alike.ite (fun _ => ?_) fun _ => ?_
    · exact Alike.lift_bind fun _ _ => .throw _
    · exact (Tidy.div (last (allTidy_some.mp top)) (last (allTidy_some.mp bottom))).lift.bind fun _ quotient =>
        .pure (allTidy_some.mpr quotient)
  next => exact .pure allTidy_none

theorem limit (tidy : Tidy e) (named : Identifier x) {point : Expr} (tidyPoint : Tidy point) :
    Reliable (e.limit x (.expr point)) := by
  refine Alike.guarded (Alike.lift_bind fun _ _ => Alike.ite (fun _ => .pure tidy) fun _ => ?_)
  have unevaluated : Reliable (do
      return .inert "limit" [e, .bare x, ← liftM (Value.expr point).copyArgument] : Engine Expr) := by
    refine (Value.tidies_copyArgument tidyPoint).lift.bind fun _ copy => .pure (inert (by decide) (by decide) ?_)
    exact allTidy_cons.mpr ⟨tidy, allTidy_cons.mpr ⟨bare named, allTidy_singleton copy⟩⟩
  refine Alike.lift_bind fun point found => ?_
  cases found
  refine Alike.ite (fun _ => ?_) fun _ => ?_
  · exact Related.bind_option (tidy.limitAtInfinity x) unevaluated fun _ tidyResult => .pure ⟨rfl, tidyResult⟩
  · refine tidy.together.bind fun parts ⟨top, bottom⟩ => ?_
    exact Related.bind_option (limitOfQuotient tidyPoint named _ top bottom) unevaluated fun _ tidyResult =>
      .pure ⟨rfl, tidyResult⟩

theorem substituteValue (tidy : Tidy e) {value : Expr} (tidyValue : Tidy value) :
    Reliable (e.substituteValue x (.expr value)) := by
  refine tidy.rebuild fun name leaf found => ?_
  split at found
  · cases found
    exact tidyValue
  · cases found

theorem difference? (tidy : Tidy e) {low high : Expr} (tidyLow : Tidy low) (tidyHigh : Tidy high) :
    Reliable (e.difference? x (.expr low) (.expr high)) := by
  refine Alike.attempt Numeric.isPole_of_isLimit ?_
  refine (tidy.substituteValue tidyHigh).bind fun _ upper => (tidy.substituteValue tidyLow).bind fun _ lower => ?_
  exact (Tidy.sub upper lower).lift

theorem quadrature? (f : Expr) (x : String) (low high : Expr) : Reliable (f.quadrature? x low high) := by
  refine Alike.attempt Numeric.iterations_of_isLimit ?_
  refine Alike.lift_bind fun _ _ => Alike.lift_bind fun _ _ => Alike.lift_bind fun _ _ => ?_
  exact (Numeric.reliable_quadrature _ _).bind fun _ _ => (Numeric.reliable_toRational _).bind fun _ _ =>
    .pure (number _)

end Expr.Tidy

namespace Value
open ExactAlgebra.Expr

variable {f low high : Expr} {given : Option String}

theorem reliable_defint (tidy : Tidy f) (tidyLow : Tidy low) (tidyHigh : Tidy high)
    (named : ∀ x ∈ given, Identifier x) : Reliable (Value.defint (.expr f) (.expr low) (.expr high) given) := by
  refine Alike.guarded (Alike.lift_bind fun x found => ?_)
  have identifier := integrationName_expr tidy named found
  refine (reliable_integrate tidy fun y same => Option.some.inj same ▸ identifier).bind fun v integral => ?_
  obtain ⟨antiderivative, rfl, tidyIntegral⟩ := integral
  refine Alike.lift_bind fun antiderivative found => ?_
  cases found
  refine Alike.branch (fun _ => .pure allTidy_none) (fun _ => tidyIntegral.difference? tidyLow tidyHigh)
    fun closed? tidyClosed => ?_
  cases closed? with
  | some result => exact .pure (allTidy_some.mp tidyClosed : Tidy result)
  | none =>
    have unevaluated : Tidy (.inert "defint" [f, low, high, .bare x]) := by
      refine .inert (by decide) (by decide) (allTidy_cons.mpr ⟨tidy, allTidy_cons.mpr ⟨tidyLow, ?_⟩⟩)
      exact allTidy_cons.mpr ⟨tidyHigh, allTidy_singleton (.bare identifier)⟩
    refine Alike.lift_bind fun a lower => Alike.lift_bind fun _ _ => Alike.lift_bind fun b upper => ?_
    refine Alike.lift_bind fun _ _ => Alike.lift_bind fun e body => Alike.lift_bind fun _ _ => ?_
    cases lower
    cases upper
    cases body
    refine Alike.ite (fun _ => (Tidy.quadrature? f x low high).bind fun area? tidyArea => .pure ?_)
      fun _ => .pure unevaluated
    cases area? with
    | none => exact unevaluated
    | some area => exact allTidy_some.mp tidyArea

theorem reliable_seriesTerms (kind : SeriesKind) (tidy : Tidy f) (index : String) {result : Expr}
    (tidyResult : Tidy result) (n : ℕ) (k : ℤ) : Reliable (seriesTerms kind (.expr f) index result n k) := by
  induction n generalizing result k with
  | zero => exact .pure tidyResult
  | succ n ih =>
    refine Alike.poll.bind fun _ _ => Alike.lift_bind fun f found => ?_
    cases found
    refine (tidy.substitute (.number k)).bind fun _ term => ?_
    cases kind with
    | sum => exact (tidyResult.add term).lift.bind fun _ total => ih total _
    | product => exact (tidyResult.mul term).lift.bind fun _ total => ih total _

theorem reliable_series (kind : SeriesKind) (tidy : Tidy f) {index : String} (named : Identifier index)
    (tidyLow : Tidy low) (tidyHigh : Tidy high) :
    Reliable (Value.series kind (.expr f) (some index) (.expr low) (.expr high)) := by
  have start : Tidy kind.start := by cases kind <;> exact .number _
  have proper : Identifier kind.name ∧ kind.name ≠ "sqrt" := by cases kind <;> decide
  unfold Value.series
  refine Alike.guarded ?_
  split
  · refine (Alike.setting _).bind fun limit _ => Alike.lift_bind fun below _ => ?_
    refine Alike.ite (fun _ => Alike.lift_bind fun _ _ => .throw_bind _) fun _ => ?_
    exact reliable_seriesTerms kind tidy _ start _ _
  · refine (tidies_copyArgument tidy).lift.bind fun _ body => (tidies_copyArgument tidyLow).lift.bind fun _ first => ?_
    refine (tidies_copyArgument tidyHigh).lift.bind fun _ last => .pure (.inert proper.1 proper.2 ?_)
    exact allTidy_cons.mpr ⟨body, allTidy_cons.mpr ⟨.bare named, allTidy_cons.mpr ⟨first, allTidy_singleton last⟩⟩⟩

end Value
end ExactAlgebra
