import ExactAlgebra.Laplace.Inverse
import ExactAlgebra.Proofs.ReliableIntegral
import Mathlib

/-! The Laplace transform and its inverse are reliable. The levels of the forward transform follow the size
of the whole expression, so two transforms are compared that may have different numbers of levels left. -/
namespace ExactAlgebra
open Engine

namespace Expr

def AlikeTransformers (recur other : Transformer) : Prop :=
  ∀ ⦃e : Expr⦄ ⦃t s : String⦄, Tidy e → Identifier t → Identifier s → Alike (recur e t s) (other e t s)

namespace Tidy

variable {a b c e u : Expr} {t s x name : String}

theorem gammaValue (p : Rat) : Tidies (Expr.gammaValue p) := by
  unfold Expr.gammaValue
  split
  · exact .ok (number _)
  · exact circleConstant.sqrt.bind fun _ root => .ok (root.scale _)

theorem laplaceKernel? {kernel : Expr → Expr → Expr → Engine Expr} (found : Expr.laplaceKernel? name = some kernel)
    (tidyA : Tidy a) (tidyB : Tidy b) (tidyC : Tidy c) : Reliable (kernel a b c) := by
  unfold Expr.laplaceKernel? at found
  split at found <;> cases found
  · refine (tidyB.apply (by decide)).bind fun _ cosine => (tidyA.mul cosine).lift.bind fun _ first => ?_
    refine (tidyB.apply (by decide)).bind fun _ sine => (tidyC.mul sine).lift.bind fun _ second => ?_
    refine (first.add second).lift.bind fun _ top => (tidyC.powRat 2).lift.bind fun _ squareC => ?_
    refine (tidyA.powRat 2).lift.bind fun _ squareA => (squareC.add squareA).lift.bind fun _ below => ?_
    exact (top.div below).lift
  · refine (tidyB.apply (by decide)).bind fun _ cosine => (tidyC.mul cosine).lift.bind fun _ first => ?_
    refine (tidyB.apply (by decide)).bind fun _ sine => (tidyA.mul sine).lift.bind fun _ second => ?_
    refine (first.sub second).lift.bind fun _ top => (tidyC.powRat 2).lift.bind fun _ squareC => ?_
    refine (tidyA.powRat 2).lift.bind fun _ squareA => (squareC.add squareA).lift.bind fun _ below => ?_
    exact (top.div below).lift
  · refine (tidyB.apply (by decide)).bind fun _ cosine => (tidyA.mul cosine).lift.bind fun _ first => ?_
    refine (tidyB.apply (by decide)).bind fun _ sine => (tidyC.mul sine).lift.bind fun _ second => ?_
    refine (first.add second).lift.bind fun _ top => (tidyC.powRat 2).lift.bind fun _ squareC => ?_
    refine (tidyA.powRat 2).lift.bind fun _ squareA => (squareC.sub squareA).lift.bind fun _ below => ?_
    exact (top.div below).lift
  · refine (tidyB.apply (by decide)).bind fun _ cosine => (tidyC.mul cosine).lift.bind fun _ first => ?_
    refine (tidyB.apply (by decide)).bind fun _ sine => (tidyA.mul sine).lift.bind fun _ second => ?_
    refine (first.add second).lift.bind fun _ top => (tidyC.powRat 2).lift.bind fun _ squareC => ?_
    refine (tidyA.powRat 2).lift.bind fun _ squareA => (squareC.sub squareA).lift.bind fun _ below => ?_
    exact (top.div below).lift

theorem squareInDouble? {rule : Expr → Engine Expr} (found : Expr.squareInDouble? name = some rule)
    (tidy : Tidy u) : Reliable (rule u) := by
  have twice := tidy.scale 2
  unfold Expr.squareInDouble? at found
  split at found <;> cases found
  · exact (twice.apply (by decide)).bind fun _ cosine => ((number 1).sub cosine).lift.bind fun _ result =>
      .pure (result.scale _)
  · exact (twice.apply (by decide)).bind fun _ cosine => ((number 1).add cosine).lift.bind fun _ result =>
      .pure (result.scale _)
  · exact (twice.apply (by decide)).bind fun _ cosine => (cosine.sub (number 1)).lift.bind fun _ result =>
      .pure (result.scale _)
  · exact (twice.apply (by decide)).bind fun _ cosine => (cosine.add (number 1)).lift.bind fun _ result =>
      .pure (result.scale _)

theorem laplaceOfPower (named : Identifier s) (p : Rat) : Reliable (Expr.laplaceOfPower p s) := by
  unfold Expr.laplaceOfPower
  split
  · exact .pure allTidy_none
  · refine (gammaValue _).lift.bind fun _ top => ((bare named).powRat _).lift.bind fun _ below => ?_
    exact (Tidy.div top below).lift.bind fun _ result => .pure (allTidy_some.mpr result)

theorem laplaceOfExponential {base exponent : Expr} (tidyBase : Tidy base) (tidyExponent : Tidy exponent)
    (named : Identifier s) : Reliable (Expr.laplaceOfExponential base exponent t s) := by
  unfold Expr.laplaceOfExponential
  split
  · exact .pure allTidy_none
  refine (tidyExponent.linear? t).bind fun parts tidyParts => ?_
  split
  · exact .pure allTidy_none
  next a b =>
    obtain ⟨tidyA, tidyB⟩ : Tidy a ∧ Tidy b := allTidy_some.mp tidyParts
    have others {rate : Expr} (tidyRate : Tidy rate) : Reliable (do
        let top ← liftM (Expr.pow base b)
        return some (← liftM (Expr.div top (← liftM (Expr.sub (Expr.bare s) rate)))) : Engine (Option Expr)) := by
      refine (tidyBase.pow tidyB).lift.bind fun _ top => ((bare named).sub tidyRate).lift.bind fun _ below => ?_
      exact (top.div below).lift.bind fun _ result => .pure (allTidy_some.mpr result)
    split
    · exact Alike.bind (.pure tidyA) fun _ => others
    · exact (tidyBase.apply (by decide)).bind fun _ log => (tidyA.mul log).lift.bind fun _ => others

theorem laplaceOfCall {recur other : Transformer} (alike : AlikeTransformers recur other) (tidy : Tidy u)
    (p : Rat) (namedT : Identifier t) (namedS : Identifier s) :
    Alike (Expr.laplaceOfCall recur name u p t s) (Expr.laplaceOfCall other name u p t s) := by
  refine (tidy.linear? t).bind fun parts tidyParts => ?_
  split
  · exact .pure allTidy_none
  next a b =>
    obtain ⟨tidyA, tidyB⟩ : Tidy a ∧ Tidy b := allTidy_some.mp tidyParts
    split
    next inDouble kernel double plain =>
      split
      · refine (squareInDouble? double tidy).bind fun _ doubled => (alike doubled namedT namedS).bind fun _ result => ?_
        exact .pure (allTidy_some.mpr result)
      split
      · exact (laplaceKernel? plain tidyA tidyB (bare namedS)).bind fun _ result => .pure (allTidy_some.mpr result)
      · exact .pure allTidy_none
    next => exact .pure allTidy_none

theorem laplaceShift {recur other : Transformer} (alike : AlikeTransformers recur other) (tidy : Tidy e)
    (namedT : Identifier t) (namedS : Identifier s) {growth : Expr} (tidyGrowth : Tidy growth) (tidyA : Tidy a)
    (tidyB : Tidy b) : Alike (Expr.laplaceShift recur e t s growth a b) (Expr.laplaceShift other e t s growth a b) := by
  refine (tidy.div tidyGrowth).lift.bind fun _ rest => (alike rest namedT namedS).bind fun shifted tidyShifted => ?_
  split
  · exact .pure allTidy_none
  · refine ((bare namedS).sub tidyA).lift.bind fun _ moved => (tidyShifted.substitute moved).bind fun _ result => ?_
    refine (naturalBase.pow tidyB).lift.bind fun _ power => (power.mul result).lift.bind fun _ product => ?_
    exact .pure (allTidy_some.mpr product)

theorem laplaceDerivative {recur other : Transformer} (alike : AlikeTransformers recur other) (tidy : Tidy e)
    (namedT : Identifier t) (namedS : Identifier s) {factor : Expr} (tidyFactor : Tidy factor) (n : ℕ) :
    Alike (Expr.laplaceDerivative recur e t s factor n) (Expr.laplaceDerivative other e t s factor n) := by
  refine (tidy.div tidyFactor).lift.bind fun _ rest => (alike rest namedT namedS).bind fun result tidyResult => ?_
  split
  · exact .pure allTidy_none
  · refine (tidyResult.diff (fun y same => Option.some.inj same ▸ namedS) n).bind fun _ slope => ?_
    exact .pure (allTidy_some.mpr (slope.scale _))

theorem growthFactor? {factors : List Expr} (tidy : ∀ f ∈ factors, Tidy f) (t : String) :
    Reliable (Expr.growthFactor? t factors) := by
  induction factors with
  | nil => exact .pure allTidy_none
  | cons f rest ih =>
    have others := ih fun g later => tidy g (List.mem_cons_of_mem f later)
    have tidyF : Tidy f := tidy f List.mem_cons_self
    unfold Expr.growthFactor?
    split
    · exact others
    next exponent found =>
      refine Alike.bind (Tidy.linear? (tidyF.naturalExponent? exponent found) t) fun parts tidyParts => ?_
      split
      · exact .pure (allTidy_some.mpr ⟨tidyF, allTidy_some.mp tidyParts⟩)
      · exact others

theorem laplaceOfProduct {recur other : Transformer} (alike : AlikeTransformers recur other) (tidy : Tidy e)
    (namedT : Identifier t) (namedS : Identifier s) :
    Alike (Expr.laplaceOfProduct recur e t s) (Expr.laplaceOfProduct other e t s) := by
  refine (growthFactor? tidy.factors t).bind fun growth? tidyGrowth => ?_
  split
  next growth a b =>
    obtain ⟨tidyGrowth, tidyA, tidyB⟩ := allTidy_some.mp tidyGrowth
    exact tidy.laplaceShift alike namedT namedS tidyGrowth tidyA tidyB
  next =>
    split
    next factor n found =>
      obtain ⟨f, member, found⟩ := List.exists_of_findSome?_eq_some found
      obtain ⟨_, -, same⟩ := Option.map_eq_some_iff.mp found
      obtain rfl : f = factor := congrArg Prod.fst same
      exact tidy.laplaceDerivative alike namedT namedS (tidy.factors f member) n
    next => exact .pure allTidy_none

theorem laplaceByRule {recur other : Transformer} (alike : AlikeTransformers recur other) (tidy : Tidy e)
    (namedT : Identifier t) (namedS : Identifier s) :
    Alike (Expr.laplaceByRule recur e t s) (Expr.laplaceByRule other e t s) := by
  unfold Expr.laplaceByRule
  split
  · exact .pure allTidy_none
  · exact laplaceOfPower namedS _
  next c name u p => exact laplaceOfCall alike (tidy.args u (by simp)) p namedT namedS
  · exact .pure allTidy_none
  · exact laplaceOfExponential tidy.base tidy.exponent namedS
  · refine tidy.expand.bind fun expanded tidyExpanded => ?_
    split
    · exact (alike tidyExpanded namedT namedS).bind fun _ result => .pure (allTidy_some.mpr result)
    · exact .pure allTidy_none
  · exact tidy.laplaceOfProduct alike namedT namedS
  · exact .throw _

theorem decays (tidy : Tidy e) (t s : String) : Reliable (Expr.decays e t s) :=
  tidy.expand.bind fun _ _ => .pure trivial

theorem laplaceByIntegration (tidy : Tidy e) (namedT : Identifier t) (namedS : Identifier s) :
    Reliable (Expr.laplaceByIntegration e t s) := by
  refine (Alike.setting _).bind fun shallow _ => (Alike.setting _).bind fun deep _ => ?_
  refine Alike.lift_bind fun deeper _ => ?_
  dsimp only
  refine ((bare namedS).mul (bare namedT)).lift.bind fun _ product => ?_
  refine (naturalBase.pow product.neg).lift.bind fun _ kernel => (kernel.mul tidy).lift.bind fun _ weighted => ?_
  refine (Alike.withSetting _ _ (weighted.integrate fun y same => Option.some.inj same ▸ namedT)).bind
    fun result tidyResult => ?_
  split
  · exact .pure allTidy_none
  refine (tidyResult.decays t s).bind fun vanishes _ => ?_
  split
  · exact .pure allTidy_none
  refine Alike.bind (Alike.attempt ?_ (tidyResult.substitute (number 0))) fun start? tidyStart => .pure ?_
  · rintro fault (kind | kind | kind) <;> simp [Fault.isUndefined, Fault.isPole, kind]
  · cases start? with
    | none => exact allTidy_none
    | some start => exact allTidy_some.mpr (Tidy.neg (allTidy_some.mp tidyStart))

theorem laplaceTerms {recur other : Transformer} (alike : AlikeTransformers recur other)
    (namedT : Identifier t) (namedS : Identifier s) {terms : List Expr} (tidy : ∀ e ∈ terms, Tidy e) :
    Alike (Expr.laplaceTerms recur t s terms) (Expr.laplaceTerms other t s terms) :=
  Alike.foldlM (number 0) fun _ total e member => (alike (tidy e member) namedT namedS).bind fun _ result =>
    (Tidy.add total result).lift

end Tidy

/-- The answer of the rules, or the transform left unevaluated. -/
theorem tidy_answer {e : Expr} {result? : Option Expr} {t s : String} (tidy : Tidy e) (tidyResult : AllTidy result?)
    (namedT : Identifier t) (namedS : Identifier s) :
    Tidy (result?.getD (inert "laplace" [e, bare t, bare s])) := by
  cases result? with
  | some result => exact allTidy_some.mp tidyResult
  | none =>
    refine .inert (by decide) (by decide) (allTidy_cons.mpr ⟨tidy, allTidy_cons.mpr ⟨.bare namedT, ?_⟩⟩)
    exact allTidy_singleton (.bare namedS)

theorem AlikeTransformers.step {recur other : Transformer} (alike : AlikeTransformers recur other) :
    AlikeTransformers (laplaceStep recur) (laplaceStep other) := by
  intro e t s tidy namedT namedS
  refine Alike.poll.bind fun _ _ => Alike.lift_bind fun _ _ => ?_
  split
  · exact (tidy.div (.bare namedS)).lift
  split
  · exact Tidy.laplaceTerms alike namedT namedS tidy.spreadTerms
  refine (tidy.stripCoefficient t).lift.bind fun parts ⟨tidyCoefficient, tidyRest⟩ => ?_
  have answer {result? : Option Expr} (tidyResult : AllTidy result?) : Reliable (Expr.mul parts.1
      (result?.getD (inert "laplace" [parts.2, bare t, bare s])) |> liftM : Engine Expr) :=
    (tidyCoefficient.mul (tidy_answer tidyRest tidyResult namedT namedS)).lift
  refine (tidyRest.laplaceByRule alike namedT namedS).bind fun result? tidyResult => ?_
  cases result? with
  | some result => exact Alike.bind (.pure tidyResult) fun _ => answer
  | none => exact (tidyRest.laplaceByIntegration namedT namedS).bind fun _ => answer

/-- To run out of levels counts as a limit. -/
theorem alikeTransformers (n m : ℕ) : AlikeTransformers (laplaceWithin n) (laplaceWithin m) := by
  have unsupported : IsLimit .unsupported := .inr (.inr rfl)
  induction n generalizing m with
  | zero => exact fun _ _ _ _ _ _ => Related.of_limit_left unsupported _
  | succ n ih =>
    cases m with
    | zero => exact fun _ _ _ _ _ _ => Related.of_limit_right unsupported _
    | succ m => exact (ih m).step

theorem Tidy.laplace {e : Expr} {t s : String} (tidy : Tidy e) (namedT : Identifier t) (namedS : Identifier s) :
    Reliable (e.laplace t s) := Alike.guarded (alikeTransformers _ _ tidy namedT namedS)

namespace Tidy

variable {a b c e r : Expr} {s t : String}

theorem inverseOfLinearPower {p q : Expr} (tidyP : Tidy p) (tidyQ : Tidy q) (named : Identifier t) (k : ℕ) :
    Tidies (Expr.inverseOfLinearPower p q t k) := by
  refine (tidyQ.mul (bare named)).bind fun _ product => (Tidy.div product tidyP).bind fun _ rate => ?_
  refine (naturalBase.pow (Tidy.neg rate)).bind fun _ shift => (tidyP.powRat k).bind fun _ scale => ?_
  refine ((bare named).powRat _).bind fun _ power => (Tidy.mul power shift).bind fun _ top => ?_
  exact Tidy.div top (Tidy.scale scale _)

theorem inverseOverLinear {base : Expr} (tidy : Tidy base) (tidyC : Tidy c) (tidyB : Tidy b) (n : ℕ)
    (s : String) (named : Identifier t) : Reliable (Expr.inverseOverLinear base c b n s t) := by
  refine (tidy.linear? s).bind fun parts tidyParts => ?_
  split
  · exact .throw _
  next p q =>
    obtain ⟨tidyP, tidyQ⟩ : Tidy p ∧ Tidy q := allTidy_some.mp tidyParts
    refine (inverseOfLinearPower tidyP tidyQ named n).lift.bind fun _ last => ?_
    refine (tidyC.mul last).lift.bind fun _ result => ?_
    split
    · exact .pure (allTidy_some.mpr result)
    split
    · exact .pure allTidy_none
    refine (tidyB.div tidyP).lift.bind fun _ ratio => ?_
    refine (inverseOfLinearPower tidyP tidyQ named (n - 1)).lift.bind fun _ previous => ?_
    refine (ratio.mul previous).lift.bind fun _ share => (result.add share).lift.bind fun _ sum => ?_
    refine (ratio.mul tidyQ).lift.bind fun _ product => (product.mul last).lift.bind fun _ excess => ?_
    exact (sum.sub excess).lift.bind fun _ difference => .pure (allTidy_some.mpr difference)

theorem powerOverFactorial (named : Identifier t) (k : ℕ) : Tidies (Expr.powerOverFactorial t k) :=
  ((bare named).powRat _).bind fun _ power => Tidy.div power (number _)

theorem inverseQuadraticParts (tidy : Tidy r) (n : ℕ) (named : Identifier t) :
    Reliable (Expr.inverseQuadraticParts r n t) := by
  unfold Expr.inverseQuadraticParts
  extract_lets sign
  clear_value sign
  split
  · refine (powerOverFactorial named _).lift.bind fun _ first => ?_
    exact (powerOverFactorial named _).lift.bind fun _ second => .pure ⟨first, second⟩
  have tidyRadicand : Tidy (if 0 < sign then r else r.neg) := by
    split
    · exact tidy
    · exact tidy.neg
  refine tidyRadicand.sqrt.lift.bind fun w tidyW => (Tidy.mul tidyW (bare named)).lift.bind fun wt tidyWt => ?_
  generalize pair : (if 0 < sign then ("sin", "cos") else ("sinh", "cosh")) = functions
  obtain ⟨name, other⟩ := functions
  have sine : Identifier name ∧ name ≠ "sqrt" := by split at pair <;> cases pair <;> decide
  have cosine : Identifier other ∧ other ≠ "sqrt" := by split at pair <;> cases pair <;> decide
  dsimp only
  split
  · refine (Tidy.apply tidyWt cosine).bind fun _ shifted => (Tidy.apply tidyWt sine).bind fun _ value => ?_
    exact (Tidy.div value tidyW).lift.bind fun _ plain => .pure ⟨shifted, plain⟩
  · refine (Tidy.apply tidyWt sine).bind fun _ value => ((bare named).mul value).lift.bind fun _ product => ?_
    refine ((number 2).mul tidyW).lift.bind fun _ twice => (Tidy.div product twice).lift.bind fun _ shifted => ?_
    refine (Tidy.apply tidyWt sine).bind fun _ value => (Tidy.apply tidyWt cosine).bind fun _ other => ?_
    refine (Tidy.mul tidyWt other).lift.bind fun _ product => (Tidy.sub value product).lift.bind fun _ inner => ?_
    refine (Tidy.powRat tidyW 3).lift.bind fun _ cube => ((number 2).mul cube).lift.bind fun _ below => ?_
    exact (Tidy.div (Tidy.scale inner _) below).lift.bind fun _ plain => .pure ⟨shifted, plain⟩

theorem inverseOverQuadratic {base : Expr} (tidy : Tidy base) (tidyC : Tidy c) (tidyB : Tidy b) (n : ℕ)
    (s : String) (named : Identifier t) : Reliable (Expr.inverseOverQuadratic base c b n s t) := by
  refine (tidy.completeSquare? s).bind fun square tidySquare => ?_
  split
  · exact .throw _
  next a h k =>
    obtain ⟨tidyA, tidyH, tidyK⟩ : Tidy a ∧ Tidy h ∧ Tidy k := allTidy_some.mp tidySquare
    refine (tidyB.mul tidyH).lift.bind fun _ product => (tidyC.sub product).lift.bind fun _ d => ?_
    refine (tidyH.mul (bare named)).lift.bind fun _ rate => (naturalBase.pow rate.neg).lift.bind fun _ shift => ?_
    refine (tidyK.div tidyA).lift.bind fun _ ratio => ?_
    refine (ratio.inverseQuadraticParts n named).bind fun parts ⟨shifted, plain⟩ => ?_
    refine (tidyB.mul shifted).lift.bind fun _ first => (d.mul plain).lift.bind fun _ second => ?_
    refine (first.add second).lift.bind fun _ body => (shift.mul body).lift.bind fun _ top => ?_
    exact (tidyA.powRat n).lift.bind fun _ below => (top.div below).lift

theorem inverseOfFraction {base : Expr} (tidy : Tidy base) (tidyC : Tidy c) (tidyB : Tidy b) (order : Rat)
    (s : String) (named : Identifier t) : Reliable (Expr.inverseOfFraction base c b order s t) := by
  unfold Expr.inverseOfFraction
  split
  · split
    · exact .pure allTidy_none
    · refine ((bare named).powRat _).lift.bind fun _ top => (gammaValue _).lift.bind fun _ below => ?_
      refine (Tidy.div top below).lift.bind fun _ result => (tidyC.mul result).lift.bind fun _ product => ?_
      exact .pure (allTidy_some.mpr product)
  split
  · exact .pure allTidy_none
  refine (tidy.coeffs? s).bind fun cs? _ => ?_
  split
  · exact tidy.inverseOverLinear tidyC tidyB _ s named
  · split
    · exact (tidy.inverseOverQuadratic tidyC tidyB _ s named).bind fun _ result => .pure (allTidy_some.mpr result)
    · exact .pure allTidy_none
  · exact .pure allTidy_none

/-- A root of an integer has no inverse, and there the stem is no expression of its own. -/
theorem inverseOfPower (tidy : Tidy e) (tidyC : Tidy c) (tidyB : Tidy b) (namedS : Identifier s)
    (namedT : Identifier t) : Reliable (Expr.inverseOfFraction e.stem c b e.power s t) := by
  cases root : e.isIntegerBase with
  | false => exact (tidy.stem root).inverseOfFraction tidyC tidyB _ s namedT
  | true =>
    cases e with
    | symbol k name p =>
      have digits : isIntegerText name = true := root
      have other : (Expr.stem (.symbol k name p)).isBare s = false := by
        have differ : name ≠ s := by
          rintro rfl
          rw [Reader.isIntegerText_identifier namedS] at digits
          cases digits
        change isBare (.symbol 1 name 1) s = false
        simpa [isBare, bareName?] using differ
      have fractional : Rational.isInteger p = false := by
        simpa [Rational.isInteger] using tidy.formed.2.2.2.1 digits
      rw [Expr.inverseOfFraction, other, if_neg Bool.false_ne_true, power, fractional]
      exact .pure allTidy_none
    | _ => cases root

theorem inverseOfTerm (tidy : Tidy e) (namedS : Identifier s) (named : Identifier t) :
    Reliable (Expr.inverseOfTerm e s t) := by
  refine (tidy.stripCoefficient s).lift.bind fun parts ⟨tidyCoefficient, tidyRest⟩ => ?_
  refine tidyRest.splitFraction.lift.bind fun fraction ⟨tidyTop, tidyBottom⟩ => ?_
  dsimp only
  split
  · exact .pure allTidy_none
  refine (tidyTop.coeffs? s).bind fun cs? tidyAll => ?_
  split
  next c cs =>
    obtain ⟨tidyC, tidyCs⟩ := allTidy_cons.mp (allTidy_some.mp tidyAll)
    have tidyFirst : Tidy (cs.headD zero) := by
      cases cs with
      | nil => exact number 0
      | cons b _ => exact (allTidy_cons.mp tidyCs).1
    refine Alike.ite (fun _ => .pure allTidy_none) fun _ => ?_
    refine (tidyBottom.inverseOfPower tidyC tidyFirst namedS named).bind fun result? tidyResult => ?_
    cases result? with
    | none => exact .pure allTidy_none
    | some result =>
      exact (Tidy.mul tidyCoefficient (allTidy_some.mp tidyResult)).lift.bind fun _ product =>
        .pure (allTidy_some.mpr product)
  next => exact .pure allTidy_none

theorem inverseOfTerms {terms : List Expr} (tidy : ∀ e ∈ terms, Tidy e) (namedS : Identifier s) (named : Identifier t)
    {result unresolved : Expr} (tidyResult : Tidy result) (tidyUnresolved : Tidy unresolved) :
    Reliable (Expr.inverseOfTerms s t terms result unresolved) := by
  induction terms generalizing result unresolved with
  | nil => exact .pure ⟨tidyResult, tidyUnresolved⟩
  | cons e rest ih =>
    have tidyE : Tidy e := tidy e List.mem_cons_self
    have others := fun f later => tidy f (List.mem_cons_of_mem e later)
    refine Alike.poll.bind fun _ _ => ?_
    refine Alike.branch (fun _ => tidyE.inverseOfTerm namedS named) (fun _ => .pure allTidy_none) fun value? tidyValue => ?_
    cases value? with
    | some value => exact (tidyResult.add (allTidy_some.mp tidyValue)).lift.bind fun _ sum => ih others sum tidyUnresolved
    | none => exact (tidyUnresolved.add tidyE).lift.bind fun _ sum => ih others tidyResult sum

theorem ilt (tidy : Tidy e) (namedS : Identifier s) (namedT : Identifier t) : Reliable (e.ilt s t) := by
  refine Alike.guarded (Alike.lift_bind fun _ _ => ?_)
  refine Alike.branch (fun _ => tidy.partfrac fun y same => Option.some.inj same ▸ namedS) (fun _ => .pure tidy)
    fun pieces tidyPieces => ?_
  have terms := inverseOfTerms tidyPieces.spreadTerms namedS namedT (number 0) (number 0)
  refine terms.bind fun sums ⟨result, unresolved⟩ => ?_
  dsimp only
  split
  · exact .pure result
  · refine (Tidy.add result (inert (by decide) (by decide) ?_)).lift
    exact allTidy_cons.mpr ⟨unresolved, allTidy_cons.mpr ⟨bare namedS, allTidy_singleton (bare namedT)⟩⟩

end Tidy

end Expr

end ExactAlgebra
