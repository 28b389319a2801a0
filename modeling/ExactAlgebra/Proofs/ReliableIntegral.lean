import ExactAlgebra.Calculus.Integral
import ExactAlgebra.Proofs.ReliableDerivative
import Mathlib

/-! Antiderivatives are reliable: every rule is, over a shallower integrator that is. -/
namespace ExactAlgebra
open Engine

instance : HoldsExprs Expr.Antiderivative where
  AllTidy
    | .found e => Expr.Tidy e
    | _ => True

namespace Expr

theorem allTidy_ofOption {e? : Option Expr} (tidy : AllTidy e?) : AllTidy (Antiderivative.ofOption e?) := by
  cases e? with
  | none => trivial
  | some e => exact (allTidy_some.mp tidy : Tidy e)

def SoundIntegrator (recur : Integrator) : Prop :=
  ∀ {e : Expr} {x : String}, Tidy e → Identifier x → ∀ depth, Reliable (recur e x depth)

namespace Tidy

variable {a b c e u : Expr} {x name : String}

theorem circleConstant : Tidy (Expr.bare "pi") := bare (by decide)

theorem naturalBase : Tidy (Expr.bare "e") := bare (by decide)

theorem antiderivativeRule {p : Rat} {rule : Expr → Engine Expr} (found : antiderivativeRule? name p = some rule)
    (tidy : Tidy u) : Reliable (rule u) := by
  have twice := tidy.scale 2
  have half := tidy.scale (1 / 2)
  unfold antiderivativeRule? at found
  split at found
  · split at found <;> cases found
    · exact (tidy.apply (by decide)).bind fun _ result => .pure result.neg
    · exact tidy.apply (by decide)
    · exact (tidy.apply (by decide)).bind fun _ cosine => (cosine.apply (by decide)).bind fun _ result =>
        .pure result.neg
    · exact tidy.apply (by decide)
    · exact tidy.apply (by decide)
    · exact (tidy.apply (by decide)).bind fun _ cosine => cosine.apply (by decide)
    · exact (tidy.apply (by decide)).bind fun _ log => (tidy.mul log).lift.bind fun _ product =>
        (product.sub tidy).lift
    · exact (tidy.apply (by decide)).bind fun _ angle => (tidy.mul angle).lift.bind fun _ first =>
        (tidy.oneMinusSquare _).lift.bind fun _ root => (first.add root).lift
    · exact (tidy.apply (by decide)).bind fun _ angle => (tidy.mul angle).lift.bind fun _ first =>
        (tidy.oneMinusSquare _).lift.bind fun _ root => (first.sub root).lift
    · refine (tidy.apply (by decide)).bind fun _ angle => (tidy.mul angle).lift.bind fun _ first => ?_
      refine (tidy.powRat 2).lift.bind fun _ square => ((number 1).add square).lift.bind fun _ sum => ?_
      exact (sum.apply (by decide)).bind fun _ log => (first.sub (log.scale _)).lift
    · exact (tidy.apply (by decide)).bind fun _ size => (tidy.mul size).lift.bind fun _ product =>
        .pure (product.scale _)
  split at found
  · split at found <;> cases found
    · exact (twice.apply (by decide)).bind fun _ sine => (half.sub (sine.scale _)).lift
    · exact (twice.apply (by decide)).bind fun _ sine => (half.add (sine.scale _)).lift
    · exact (tidy.apply (by decide)).bind fun _ tangent => (tangent.sub tidy).lift
    · exact (twice.apply (by decide)).bind fun _ sine => ((sine.scale _).sub half).lift
    · exact (twice.apply (by decide)).bind fun _ sine => ((sine.scale _).add half).lift
    · refine (tidy.apply (by decide)).bind fun _ log => (log.powRat 2).lift.bind fun _ power => ?_
      refine (tidy.mul power).lift.bind fun _ square => ?_
      refine (tidy.apply (by decide)).bind fun _ log => (tidy.mul log).lift.bind fun _ plain => ?_
      exact (square.sub (plain.scale 2)).lift.bind fun _ difference => (difference.add twice).lift
  split at found
  · split at found <;> cases found
    · exact tidy.apply (by decide)
    · refine (tidy.apply (by decide)).bind fun _ cosine => (tidy.apply (by decide)).bind fun _ sine => ?_
      exact (cosine.div sine).lift.bind fun _ quotient => .pure quotient.neg
    · exact tidy.apply (by decide)
  split at found
  · split at found <;> cases found
    · refine (tidy.apply (by decide)).bind fun _ tangent => (tidy.apply (by decide)).bind fun _ cosine => ?_
      refine (cosine.powRat _).lift.bind fun _ secant => (tangent.add secant).lift.bind fun _ sum => ?_
      exact sum.apply (by decide)
    · exact (half.apply (by decide)).bind fun _ tangent => tangent.apply (by decide)
  · cases found

theorem integratePower (named : Identifier x) (p : Rat) : Reliable (Expr.integratePower x p) := by
  unfold Expr.integratePower
  split
  · exact (bare named).apply (by decide)
  · exact ((bare named).powRat _).lift.bind fun _ power => (power.div (number _)).lift

theorem integrateExponential {c : Rat} {base exponent : Expr} (tidy : Tidy (exponential c base exponent))
    (named : Identifier x) : Reliable (Expr.integrateExponential c base exponent x) := by
  have inapplicable : Reliable (return .inapplicable : Engine Antiderivative) := .pure trivial
  unfold Expr.integrateExponential
  split
  · exact inapplicable
  refine Alike.branch (fun _ => .pure (number 1)) (fun _ => tidy.base.apply (by decide)) fun logBase tidyLog => ?_
  refine (tidy.exponent.linear? x).bind fun parts tidyParts => ?_
  split
  next a b =>
    have tidyA : Tidy a := (allTidy_some.mp tidyParts).1
    exact (tidyA.mul tidyLog).lift.bind fun _ below => (tidy.div below).lift.bind fun _ quotient =>
      .pure quotient
  next =>
    split
    · exact inapplicable
    refine (tidy.exponent.completeSquare? x).bind fun square tidySquare => ?_
    split
    next a h k =>
      have tidyK : Tidy k := (allTidy_some.mp tidySquare).2.2
      split
      · refine (number (-a)).sqrt.lift.bind fun _ root => circleConstant.sqrt.lift.bind fun _ circle => ?_
        refine (naturalBase.pow tidyK).lift.bind fun _ power => (circle.mul power).lift.bind fun _ top => ?_
        refine ((number 2).mul root).lift.bind fun _ below => (top.div below).lift.bind fun _ scale => ?_
        refine (root.mul (bare named)).lift.bind fun _ scaled => (scaled.apply (by decide)).bind fun _ erf => ?_
        exact (scale.mul erf).lift.bind fun _ result => .pure result
      · exact inapplicable
    next => exact inapplicable

theorem integrateInverseRoot (tidy : Tidy e) (named : Identifier x) : Reliable (Expr.integrateInverseRoot e x) := by
  refine (tidy.completeSquare? x).bind fun square tidySquare => ?_
  split
  next a h k =>
    have tidyH : Tidy h := (allTidy_some.mp tidySquare).2.1
    refine ((bare named).add tidyH).lift.bind fun shifted tidyShifted => ?_
    have answer {name : String} (called : Identifier name ∧ name ≠ "sqrt") (ratio size : Rat) :
        Reliable (do
          let scale ← liftM (Expr.sqrt (.number ratio))
          let top ← Engine.apply name (← liftM (Expr.mul scale shifted))
          return some (← liftM (Expr.div top (← liftM (Expr.sqrt (.number size))))) : Engine (Option Expr)) := by
      refine (number ratio).sqrt.lift.bind fun _ scale => (scale.mul tidyShifted).lift.bind fun _ scaled => ?_
      refine (scaled.apply called).bind fun _ top => (number size).sqrt.lift.bind fun _ root => ?_
      exact (top.div root).lift.bind fun _ result => .pure (allTidy_some.mpr result)
    dsimp only
    split
    · exact answer (by decide) _ _
    split
    · exact answer (by decide) _ _
    split
    · exact answer (by decide) _ _
    · exact .pure allTidy_none
  next => exact .pure allTidy_none

theorem integratePowerOfSum {recur : Integrator} (sound : SoundIntegrator recur) {base : Expr} (tidy : Tidy e)
    (tidyBase : Tidy base) (p : Rat) (named : Identifier x) (depth : ℤ) :
    Reliable (Expr.integratePowerOfSum recur e base p x depth) := by
  refine (tidyBase.linear? x).bind fun parts tidyParts => ?_
  split
  next a b =>
    have tidyA : Tidy a := (allTidy_some.mp tidyParts).1
    split
    · exact (tidyBase.apply (by decide)).bind fun _ log => (log.div tidyA).lift.bind fun _ result => .pure result
    · refine (tidyBase.powRat _).lift.bind fun _ power => (tidyA.mul (number _)).lift.bind fun _ below => ?_
      exact (power.div below).lift.bind fun _ result => .pure result
  next =>
    refine Alike.branch (fun _ => tidyBase.integrateInverseRoot named) (fun _ => .pure allTidy_none)
      fun inverse tidyInverse => ?_
    cases inverse with
    | some result => exact .pure (allTidy_some.mp tidyInverse : Tidy result)
    | none =>
      dsimp only
      split
      · refine tidy.expand.bind fun _ expanded => (sound expanded named _).bind fun _ result => ?_
        exact .pure (allTidy_ofOption result)
      · exact .pure trivial

theorem integrateSimple {recur : Integrator} (sound : SoundIntegrator recur) (tidy : Tidy e) (named : Identifier x)
    (depth : ℤ) : Reliable (Expr.integrateSimple recur e x depth) := by
  have inapplicable : Reliable (return .inapplicable : Engine Antiderivative) := .pure trivial
  unfold Expr.integrateSimple
  split
  next c name p =>
    split
    · exact (integratePower named p).bind fun _ result => .pure result
    · exact inapplicable
  next c name u p =>
    have tidyU : Tidy u := tidy.args u (by simp)
    refine (tidyU.linear? x).bind fun parts tidyParts => ?_
    split
    next a b rule found =>
      refine (antiderivativeRule found tidyU).bind fun _ outer => ?_
      exact (outer.div (allTidy_some.mp tidyParts).1).lift.bind fun _ result => .pure result
    next => exact inapplicable
  next => exact tidy.integrateExponential named
  next c terms p => exact tidy.integratePowerOfSum sound tidy.plain p named depth
  next => exact inapplicable

/-- What is left of the integral over a quadratic after the logarithm was split off. -/
theorem integrateOverSquare (tidy : Tidy e) (named : Identifier x) (remaining h ratio a : Rat) :
    Reliable (do
      if remaining = 0 then return some e
      let shifted ← liftM (Expr.add (Expr.bare x) (.number h))
      if 0 < ratio then
        let root ← liftM (Expr.sqrt (.number ratio))
        let inner ← liftM (Expr.mul (.number (remaining / a)) (← liftM (Expr.div
          (← Engine.apply "atan" (← liftM (Expr.div shifted root))) root)))
        return some (← liftM (Expr.add e inner))
      else if ratio < 0 then
        let root ← liftM (Expr.sqrt (.number (-ratio)))
        let quotient ← liftM (Expr.div (← liftM (Expr.sub shifted root)) (← liftM (Expr.add shifted root)))
        let inner ← liftM (Expr.mul (.number (remaining / a)) (← liftM (Expr.div
          (← Engine.apply "log" quotient) (← liftM (Expr.mul (.number 2) root)))))
        return some (← liftM (Expr.add e inner))
      else return some (← liftM (Expr.add e ((← liftM (Expr.inv shifted)).scale (-remaining / a)))) :
      Engine (Option Expr)) := by
  split
  · exact .pure (allTidy_some.mpr tidy)
  refine ((bare named).add (number h)).lift.bind fun shifted tidyShifted => ?_
  split
  · refine (number _).sqrt.lift.bind fun _ root => (tidyShifted.div root).lift.bind fun _ ratio => ?_
    refine (ratio.apply (by decide)).bind fun _ angle => (angle.div root).lift.bind fun _ quotient => ?_
    refine ((number _).mul quotient).lift.bind fun _ inner => ?_
    exact (tidy.add inner).lift.bind fun _ sum => .pure (allTidy_some.mpr sum)
  split
  · refine (number _).sqrt.lift.bind fun _ root => (tidyShifted.sub root).lift.bind fun _ above => ?_
    refine (tidyShifted.add root).lift.bind fun _ below => (above.div below).lift.bind fun _ quotient => ?_
    refine (quotient.apply (by decide)).bind fun _ log => ((number 2).mul root).lift.bind fun _ twice => ?_
    refine (log.div twice).lift.bind fun _ share => ((number _).mul share).lift.bind fun _ inner => ?_
    exact (tidy.add inner).lift.bind fun _ sum => .pure (allTidy_some.mpr sum)
  · refine tidyShifted.inv.lift.bind fun _ inverse => ?_
    exact (tidy.add (inverse.scale _)).lift.bind fun _ sum => .pure (allTidy_some.mpr sum)

theorem integrateOverQuadratic {top bottom : Expr} (tidyTop : Tidy top) (tidy : Tidy bottom) (named : Identifier x) :
    Reliable (Expr.integrateOverQuadratic top bottom x) := by
  refine (tidyTop.poly? x).bind fun p? _ => (tidy.completeSquare? x).bind fun square? _ => ?_
  split
  next p a h k _ _ =>
    have rest {result : Expr} (tidyResult : Tidy result) :=
      tidyResult.integrateOverSquare named (p.coeff 0 - p.coeff 1 * h) h (k / a) a
    dsimp only
    split
    · exact .pure allTidy_none
    split
    · exact Alike.bind (.pure (number 0)) fun _ => rest
    · exact (tidy.apply (by decide)).bind fun _ log => Alike.bind (.pure (log.scale _)) fun _ => rest
  next => exact .pure allTidy_none

theorem integrateFractions {recur : Integrator} (sound : SoundIntegrator recur) (named : Identifier x) (depth : ℤ)
    {terms : List Expr} (tidy : ∀ t ∈ terms, Tidy t) {total : Expr} (tidyTotal : Tidy total) :
    Reliable (Expr.integrateFractions recur x depth total terms) := by
  induction terms generalizing total with
  | nil => exact .pure (allTidy_some.mpr tidyTotal)
  | cons t rest ih =>
    have tidyT : Tidy t := tidy t List.mem_cons_self
    refine tidyT.splitFraction.lift.bind fun parts ⟨tidyTop, tidyBottom⟩ => ?_
    refine (tidyBottom.poly? x).bind fun p? _ => ?_
    cases p? with
    | none => exact .pure allTidy_none
    | some p =>
      have others (part : Expr) (tidyPart : Tidy part) : Reliable (do
          Expr.integrateFractions recur x depth (← liftM (Expr.add total part)) rest : Engine (Option Expr)) :=
        (tidyTotal.add tidyPart).lift.bind fun _ sum =>
          ih (fun t later => tidy t (List.mem_cons_of_mem _ later)) sum
      dsimp only
      split
      · exact Related.bind_option (sound tidyT named _) (.pure ⟨rfl, allTidy_none⟩) others
      split
      · exact Related.bind_option (tidyTop.integrateOverQuadratic tidyBottom named) (.pure ⟨rfl, allTidy_none⟩) others
      · exact .pure allTidy_none

theorem integrateRational {recur : Integrator} (sound : SoundIntegrator recur) (tidy : Tidy e)
    (named : Identifier x) (depth : ℤ) : Reliable (Expr.integrateRational recur e x depth) := by
  refine tidy.together.bind fun parts ⟨tidyTop, tidyBottom⟩ => ?_
  dsimp only
  split
  · exact .pure trivial
  refine (tidyTop.poly? x).bind fun p? _ => ?_
  split
  · exact .pure trivial
  refine (tidyBottom.poly? x).bind fun q? _ => ?_
  split
  · exact .pure trivial
  refine (tidyTop.div tidyBottom).lift.bind fun _ quotient => ?_
  refine (quotient.partfrac fun y same => Option.some.inj same ▸ named).bind fun _ pieces => ?_
  exact (integrateFractions sound named depth pieces.spreadTerms (number 0)).bind fun _ result =>
    .pure (allTidy_ofOption result)

theorem naturalExponent? (tidy : Tidy e) : AllTidy e.naturalExponent? := by
  unfold Expr.naturalExponent?
  split
  · split
    · exact allTidy_some.mpr tidy.exponent
    · exact allTidy_none
  · exact allTidy_none

theorem sinusoid? (tidy : Tidy e) {isSine : Bool} (found : e.sinusoid? = some (isSine, u)) : Tidy u := by
  unfold Expr.sinusoid? at found
  split at found
  · split at found
    · cases found
      exact tidy.args u List.mem_cons_self
    · cases found
  · cases found

theorem factorsWith (tidy : Tidy e) : ∀ f ∈ e.factorsWith x, Tidy f := fun f member =>
  tidy.factors f (List.mem_filter.mp member).1

theorem integrateCyclic (tidy : Tidy e) (x : String) : Reliable (Expr.integrateCyclic e x) := by
  have inapplicable : Reliable (return .inapplicable : Engine Antiderivative) := .pure trivial
  unfold Expr.integrateCyclic
  dsimp only
  split
  · exact inapplicable
  split
  next growth isSine u first second =>
    have tidyGrowth : Tidy growth := tidy.factorsWith growth (List.mem_of_find?_eq_some first)
    obtain ⟨factor, member, found⟩ := List.exists_of_findSome?_eq_some second
    have tidyU : Tidy u := (tidy.factorsWith factor member).sinusoid? found
    have tidyExponent : Tidy (growth.naturalExponent?.getD zero) := by
      have tidyFound := tidyGrowth.naturalExponent?
      cases known : growth.naturalExponent? with
      | none => exact number 0
      | some exponent => exact tidyFound exponent known
    refine (tidyExponent.linear? x).bind fun parts tidyParts => ?_
    refine (tidyU.linear? x).bind fun others tidyOthers => ?_
    split
    next a _ b _ =>
      have tidyA : Tidy a := (allTidy_some.mp tidyParts).1
      have tidyB : Tidy b := (allTidy_some.mp tidyOthers).1
      refine (tidyU.apply (by decide)).bind fun sine tidySine => ?_
      refine (tidyU.apply (by decide)).bind fun cosine tidyCosine => ?_
      refine (tidyA.mul tidyA).lift.bind fun _ squareA => (tidyB.mul tidyB).lift.bind fun _ squareB => ?_
      refine (squareA.add squareB).lift.bind fun scale tidyScale => ?_
      have answer {body : Expr} (tidyBody : Tidy body) : Reliable (do
          return .found (← liftM (Expr.div (← liftM (Expr.mul growth body)) scale)) : Engine Antiderivative) :=
        (tidyGrowth.mul tidyBody).lift.bind fun _ product => (product.div tidyScale).lift.bind fun _ result =>
          .pure result
      split
      · refine (tidyA.mul tidySine).lift.bind fun _ first => (tidyB.mul tidyCosine).lift.bind fun _ second => ?_
        exact (first.sub second).lift.bind fun _ => answer
      · refine (tidyA.mul tidyCosine).lift.bind fun _ first => (tidyB.mul tidySine).lift.bind fun _ second => ?_
        exact (first.add second).lift.bind fun _ => answer
    next => exact inapplicable
  next => exact inapplicable

theorem composite? {t : Expr} (tidy : Tidy e) (tidyT : Tidy t) : Reliable (Expr.composite? e t) := by
  unfold Expr.composite?
  split
  next c name u p =>
    have called : Identifier name ∧ name ≠ "sqrt" := ⟨tidy.formed.2.2.1, tidy.formed.2.2.2.1⟩
    refine (tidyT.apply called).bind fun _ outer => (outer.powRat p).lift.bind fun _ power => ?_
    exact .pure (allTidy_some.mpr ⟨tidy.args u (by simp), power⟩)
  next c base exponent =>
    exact (tidy.base.pow tidyT).lift.bind fun _ power => .pure (allTidy_some.mpr ⟨tidy.exponent, power⟩)
  next c terms p =>
    split
    · exact .pure allTidy_none
    · exact (tidyT.powRat p).lift.bind fun _ power => .pure (allTidy_some.mpr ⟨tidy.plain, power⟩)
  next => exact .pure allTidy_none

theorem substituteInner {recur : Integrator} (sound : SoundIntegrator recur) (tidy : Tidy e)
    (named : Identifier x) (depth : ℤ) {factor : Expr} (tidyFactor : Tidy factor) :
    Reliable (Expr.substituteInner recur e x depth factor) := by
  have fresh : Identifier substitutionName := by decide
  refine Alike.poll.bind fun _ _ => (tidyFactor.composite? (bare fresh)).bind fun parts tidyParts => ?_
  split
  · exact .pure allTidy_none
  next inner outer =>
    obtain ⟨tidyInner, tidyOuter⟩ := allTidy_some.mp tidyParts
    refine Alike.bind (tidyInner.linear? x) fun linear _ => ?_
    split
    · exact .pure allTidy_none
    refine (tidy.div tidyFactor).lift.bind fun _ rest => (derive named tidyInner).bind fun slope tidySlope => ?_
    split
    · exact .pure allTidy_none
    refine (rest.div tidySlope).lift.bind fun ratio tidyRatio => ?_
    refine Alike.branch (fun _ => tidyRatio.expand) (fun _ => .pure tidyRatio) fun ratio tidyRatio => ?_
    dsimp only
    split
    · exact .pure allTidy_none
    refine (sound tidyOuter fresh _).bind fun found tidyFound => ?_
    split
    · exact .pure allTidy_none
    · refine (Tidy.substitute (allTidy_some.mp tidyFound) tidyInner).bind fun _ back => ?_
      exact (tidyRatio.mul back).lift.bind fun _ result => .pure (allTidy_some.mpr result)

theorem substituteFactor (tidy : Tidy e) (named : Identifier x) {factor : Expr} (tidyFactor : Tidy factor) :
    Reliable (Expr.substituteFactor e x factor) := by
  refine Alike.poll.bind fun _ _ => ?_
  split
  · exact .pure allTidy_none
  next suited =>
    have tidyStem : Tidy factor.stem := tidyFactor.stem (by cases factor <;> simp_all [isCall, isSum, isIntegerBase])
    dsimp only
    refine (derive named tidyStem).bind fun slope tidySlope => ?_
    split
    · exact .pure allTidy_none
    refine (tidy.div tidyFactor).lift.bind fun _ rest => (rest.div tidySlope).lift.bind fun _ ratio => ?_
    split
    · exact .pure allTidy_none
    split
    · refine (tidyStem.apply (by decide)).bind fun _ log => (ratio.mul log).lift.bind fun _ result => ?_
      exact .pure (allTidy_some.mpr result)
    · refine (tidyStem.powRat _).lift.bind fun _ power => (power.div (number _)).lift.bind fun _ quotient => ?_
      exact (ratio.mul quotient).lift.bind fun _ result => .pure (allTidy_some.mpr result)

theorem firstAnswer {rule : Expr → Engine (Option Expr)} {factors : List Expr}
    (each : ∀ f ∈ factors, Reliable (rule f)) : Reliable (Expr.firstAnswer rule factors) := by
  induction factors with
  | nil => exact .pure allTidy_none
  | cons f rest ih =>
    refine (each f List.mem_cons_self).bind fun answer tidyAnswer => ?_
    cases answer with
    | some result => exact .pure tidyAnswer
    | none => exact ih fun g later => each g (List.mem_cons_of_mem f later)

theorem integrateBySubstitution {recur : Integrator} (sound : SoundIntegrator recur) (tidy : Tidy e)
    (named : Identifier x) (depth : ℤ) : Reliable (Expr.integrateBySubstitution recur e x depth) := by
  have candidates : ∀ f ∈ (if e.isProduct then e.factors else [e]), Tidy f := by
    intro f member
    split at member
    · exact tidy.factors f member
    · exact List.mem_singleton.mp member ▸ tidy
  refine Alike.bind (firstAnswer fun f member => tidy.substituteInner sound named depth (candidates f member))
    fun inner tidyInner => ?_
  cases inner with
  | some result => exact .pure (allTidy_some.mp tidyInner : Tidy result)
  | none =>
    refine Alike.bind (firstAnswer fun f member => tidy.substituteFactor named (candidates f member))
      fun power tidyPower => ?_
    cases power with
    | some result => exact .pure (allTidy_some.mp tidyPower : Tidy result)
    | none => exact .pure trivial

theorem partsFactor? {factors : List Expr} (tidy : ∀ f ∈ factors, Tidy f)
    (found : Expr.partsFactor? factors = some u) : Tidy u := by
  rcases Option.or_eq_some_iff.mp found with inverse | ⟨-, power⟩
  · exact tidy u (List.mem_of_find?_eq_some inverse)
  · exact tidy u (List.mem_of_find?_eq_some power)

theorem integrateByParts {recur : Integrator} (sound : SoundIntegrator recur) (tidy : Tidy e)
    (named : Identifier x) (depth : ℤ) : Reliable (Expr.integrateByParts recur e x depth) := by
  have inapplicable : Reliable (return .inapplicable : Engine Antiderivative) := .pure trivial
  unfold Expr.integrateByParts
  dsimp only
  split
  · exact inapplicable
  next u found =>
    have tidyU : Tidy u := partsFactor? tidy.factorsWith found
    refine Alike.ite (fun _ => inapplicable) fun _ => (tidy.div tidyU).lift.bind fun _ rest => ?_
    refine (sound rest named _).bind fun first tidyFirst => ?_
    split
    · exact inapplicable
    next v =>
      have tidyV : Tidy v := allTidy_some.mp tidyFirst
      refine (derive named tidyU).bind fun _ slope => (slope.mul tidyV).lift.bind fun _ product => ?_
      refine (sound product named _).bind fun second tidySecond => ?_
      split
      · exact inapplicable
      next remainder =>
        have tidyRemainder : Tidy remainder := allTidy_some.mp tidySecond
        refine (tidyU.mul tidyV).lift.bind fun _ whole => ?_
        exact (whole.sub tidyRemainder).lift.bind fun _ result => .pure result

theorem firstRule {rules : List (Engine Antiderivative)} (each : ∀ rule ∈ rules, Reliable rule) :
    Reliable (Expr.firstRule rules) := by
  induction rules with
  | nil => exact .pure trivial
  | cons rule rest ih =>
    refine Alike.poll.bind fun _ _ => (each rule List.mem_cons_self).bind fun outcome tidyOutcome => ?_
    cases outcome with
    | inapplicable => exact ih fun other later => each other (List.mem_cons_of_mem rule later)
    | found result => exact .pure tidyOutcome
    | stuck => exact .pure trivial

theorem integrateProduct {recur : Integrator} (sound : SoundIntegrator recur) (tidy : Tidy e)
    (named : Identifier x) (depth : ℤ) : Reliable (Expr.integrateProduct recur e x depth) := by
  refine firstRule ?_
  simp only [List.mem_cons, List.not_mem_nil, or_false, forall_eq_or_imp, forall_eq]
  exact ⟨tidy.integrateRational sound named depth, tidy.integrateCyclic x,
    tidy.integrateBySubstitution sound named depth, tidy.integrateByParts sound named depth⟩

theorem integrateTerms {recur : Integrator} (sound : SoundIntegrator recur) (named : Identifier x) (depth : ℤ)
    {terms : List Expr} (tidy : ∀ t ∈ terms, Tidy t) {total : Expr} (tidyTotal : Tidy total) :
    Reliable (Expr.integrateTerms recur x depth total terms) := by
  induction terms generalizing total with
  | nil => exact .pure (allTidy_some.mpr tidyTotal)
  | cons t rest ih =>
    refine (sound (tidy t List.mem_cons_self) named depth).bind fun part tidyPart => ?_
    cases part with
    | none => exact .pure allTidy_none
    | some part =>
      refine (tidyTotal.add (allTidy_some.mp tidyPart)).lift.bind fun _ sum => ?_
      exact ih (fun t later => tidy t (List.mem_cons_of_mem _ later)) sum

theorem integrateRest {recur : Integrator} (sound : SoundIntegrator recur) (tidy : Tidy e)
    (named : Identifier x) (depth : ℤ) : Reliable (Expr.integrateRest recur e x depth) := by
  refine (tidy.integrateSimple sound named depth).bind fun simple tidySimple => ?_
  cases simple with
  | found result => exact .pure (allTidy_some.mpr tidySimple)
  | stuck => exact .pure allTidy_none
  | inapplicable =>
    refine tidy.expand.bind fun expanded tidyExpanded => ?_
    split
    · exact sound tidyExpanded named _
    refine (tidy.integrateProduct sound named depth).bind fun product tidyProduct => ?_
    cases product with
    | found result => exact .pure (allTidy_some.mpr tidyProduct)
    | stuck => exact .pure allTidy_none
    | inapplicable =>
      refine Alike.lift_bind fun unchanged _ => ?_
      split
      · exact .pure allTidy_none
      · exact sound tidyExpanded named _

end Tidy

theorem SoundIntegrator.step {level deeper : Integrator} (soundLevel : SoundIntegrator level)
    (soundDeeper : SoundIntegrator deeper) : SoundIntegrator (integrateStep level deeper) := by
  intro e x tidy named depth
  refine Alike.poll.bind fun _ _ => (Alike.setting _).bind fun limit _ => Alike.lift_bind fun below _ => ?_
  split
  · exact .pure allTidy_none
  refine Alike.lift_bind fun _ _ => ?_
  split
  · exact (tidy.mul (.bare named)).lift.bind fun _ product => .pure (allTidy_some.mpr product)
  split
  · exact Tidy.integrateTerms soundLevel named depth tidy.spreadTerms (.number 0)
  refine (tidy.stripCoefficient x).lift.bind fun parts ⟨tidyCoefficient, tidyRest⟩ => ?_
  dsimp only
  split
  · exact tidyRest.integrateRest soundDeeper named depth
  refine (soundLevel tidyRest named depth).bind fun result tidyResult => ?_
  split
  · exact .pure allTidy_none
  · exact (tidyCoefficient.mul (allTidy_some.mp tidyResult)).lift.bind fun _ product =>
      .pure (allTidy_some.mpr product)

theorem SoundIntegrator.integrateAt {deeper : Integrator} (sound : SoundIntegrator deeper) (n : ℕ) :
    SoundIntegrator (integrateAt deeper n) := by
  induction n with
  | zero => exact fun _ _ _ => .throw _
  | succ n ih => exact ih.step sound

theorem soundIntegrator (n : ℕ) : SoundIntegrator (integrator n) := by
  induction n with
  | zero => exact fun _ _ _ => .throw _
  | succ n ih => exact fun tidy named depth => ih.integrateAt _ tidy named depth

theorem Tidy.antiderivative? {e : Expr} {x : String} (tidy : Tidy e) (named : Identifier x) :
    Reliable (e.antiderivative? x) :=
  (Alike.setting _).bind fun _ _ => soundIntegrator _ tidy named 0

end Expr

namespace Value
open ExactAlgebra.Expr

variable {e : Expr} {given : Option String}

theorem integrationName_expr (tidy : Tidy e) (named : ∀ x ∈ given, Identifier x) {x : String}
    (returned : (Value.expr e).integrationName given = .ok x) : Identifier x := by
  obtain ⟨found, searched, returned⟩ := Outcome.bind_ok returned
  have known := unknown?_expr tidy named searched
  cases returned
  cases found with
  | none => decide
  | some x =>
    have identifier := known x rfl
    dsimp only [Option.getD]
    split
    · decide
    · exact identifier

theorem tidies_copyArgument (tidy : Tidy e) : Tidies (Value.expr e).copyArgument := by
  unfold Value.copyArgument
  split
  · exact .ok tidy
  · exact .error _

theorem reliable_integrate (tidy : Tidy e) (named : ∀ x ∈ given, Identifier x) :
    Reliable ((Value.expr e).integrate given) := by
  unfold Value.integrate
  refine Alike.guarded (Alike.lift_bind fun x found => ?_)
  have identifier := integrationName_expr tidy named found
  refine Alike.bind (tidy.antiderivative? identifier) fun result tidyResult => ?_
  cases result with
  | some r => exact .pure ⟨r, rfl, allTidy_some.mp tidyResult⟩
  | none =>
    refine (tidies_copyArgument tidy).lift.bind fun copy tidyCopy => .pure ⟨_, rfl, ?_⟩
    exact .inert (by decide) (by decide) (allTidy_cons.mpr ⟨tidyCopy, allTidy_singleton (.bare identifier)⟩)

end Value

theorem Expr.Tidy.integrate {e : Expr} {given : Option String} (tidy : e.Tidy)
    (named : ∀ x ∈ given, Expr.Identifier x) : Reliable (e.integrate given) := by
  refine (Value.reliable_integrate tidy named).bind fun v tidyV => ?_
  obtain ⟨r, rfl, tidyR⟩ := tidyV
  exact .pure tidyR

end ExactAlgebra
