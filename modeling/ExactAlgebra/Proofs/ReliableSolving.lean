import ExactAlgebra.Proofs.EquationRoots
import ExactAlgebra.Proofs.ReliableSearch
import ExactAlgebra.Solve.Equation
import Mathlib

/-! Solving equations in one unknown is reliable. -/
namespace ExactAlgebra
open Engine ExactAlgebra.Expr

theorem tidies_linearRoots {a b : Expr} (tidyB : Tidy b) (tidyA : Tidy a) : Tidies (linearRoots b a) :=
  (tidyB.div tidyA).bind fun _ quotient => .ok (allTidy_singleton (Tidy.neg quotient))

theorem reliable_quadraticRoots {a b c : Expr} (tidyC : Tidy c) (tidyB : Tidy b) (tidyA : Tidy a) :
    Reliable (quadraticRoots c b a) := by
  refine (tidyB.mul tidyB).lift.bind fun _ square => (tidyA.mul tidyC).lift.bind fun _ product => ?_
  refine (Tidy.sub square (Tidy.scale product 4)).lift.bind fun _ difference => ?_
  refine (Tidy.expand difference).bind fun discriminant tidyDiscriminant => ?_
  have below := tidyA.scale 2
  refine Alike.ite (fun _ => ?_) fun _ => ?_
  · exact (tidyB.neg.div below).lift.bind fun _ root => .pure (allTidy_singleton root)
  · refine (Tidy.sqrt tidyDiscriminant).lift.bind fun _ root => (tidyB.neg.add root).lift.bind fun _ sum => ?_
    refine (Tidy.div sum below).lift.bind fun _ first => (tidyB.neg.sub root).lift.bind fun _ difference => ?_
    exact (Tidy.div difference below).lift.bind fun _ second => .pure (allTidy_cons.mpr ⟨first, allTidy_singleton second⟩)

namespace Poly

variable (p : Poly)

theorem reliable_circleRoot {radius : Expr} (tidy : Tidy radius) (n offset k : ℕ) :
    Reliable (circleRoot radius n offset k) := by
  have angle := Tidy.circleConstant.scale (mkRat (2 * k + offset : ℕ) n)
  refine Alike.poll.bind fun _ _ => (angle.apply (by decide)).bind fun _ cosine => ?_
  refine (angle.apply (by decide)).bind fun _ sine => ((Tidy.bare (by decide)).mul sine).lift.bind fun _ imaginary => ?_
  refine (Tidy.add cosine imaginary).lift.bind fun _ unit => (tidy.mul unit).lift.bind fun _ root => ?_
  exact Tidy.expand root

theorem reliable_twoTermRoots : Reliable p.twoTermRoots := by
  refine ((Tidy.number _).powRat _).lift.bind fun radius tidyRadius => ?_
  refine (Alike.mapM fun k _ => reliable_circleRoot tidyRadius _ _ k).bind fun roots tidyRoots => .pure ?_
  exact allTidy_append (fun root member => tidyRoots root (List.mem_filter.mp member).1)
    fun root member => tidyRoots root (List.mem_filter.mp member).1

theorem reliable_polishRoot? (cs : List Float) (z : Numeric.Point) : Reliable (polishRoot? cs z) := by
  refine Alike.poll.bind fun _ _ => Alike.ite (fun _ => .pure allTidy_none) fun _ => ?_
  refine (Numeric.reliable_newton? _).bind fun _ _ => (Numeric.reliable_toRational _).bind fun _ _ => ?_
  exact .pure (allTidy_some.mpr (Tidy.number _))

theorem reliable_numericRoots : Reliable p.numericRoots := by
  have float (c : Rat) : Reliable (liftM (Binary64.ofRat c) : Engine Float) := .lift fun _ _ => trivial
  exact (Alike.mapM fun c _ => float c).bind fun cs _ => Alike.rootFinder.bind fun find _ =>
    Alike.filterMapM fun z _ => reliable_polishRoot? cs z

theorem reliable_irrationalRoots : Reliable p.irrationalRoots := by
  have numbers : ∀ c ∈ p.coefficients.map number, Tidy c := by
    intro c member
    obtain ⟨_, -, rfl⟩ := List.mem_map.mp member
    exact .number _
  unfold irrationalRoots
  split
  · exact .pure allTidy_nil
  · exact .pure allTidy_nil
  next b a same =>
    rw [same] at numbers
    exact (tidies_linearRoots (numbers b (by simp)) (numbers a (by simp))).lift
  next c b a same =>
    rw [same] at numbers
    exact reliable_quadraticRoots (numbers c (by simp)) (numbers b (by simp)) (numbers a (by simp))
  · exact Alike.ite (fun _ => p.reliable_twoTermRoots) fun _ => p.reliable_numericRoots

theorem reliable_divideOutRoot (root : Rat) : Reliable (divideOutRoot p root) :=
  Alike.poll.bind fun _ _ => (Alike.pollSteps _).bind fun _ _ => .pure trivial

theorem reliable_roots : Reliable p.roots := by
  refine Alike.ite (fun _ => p.reliable_twoTermRoots) fun _ => p.reliable_findRoots.bind fun rational _ => ?_
  have start : AllTidy p := trivial
  refine (Alike.foldlM start fun q _ root _ => q.reliable_divideOutRoot root).bind fun rest _ => ?_
  refine rest.reliable_irrationalRoots.bind fun others tidyOthers => .pure (allTidy_append ?_ tidyOthers)
  intro root member
  obtain ⟨_, -, rfl⟩ := List.mem_map.mp member
  exact Tidy.number _

end Poly

namespace Expr

theorem allTidy_expr {e : Expr} (tidy : Tidy e) : AllTidy (Value.expr e) := ⟨e, rfl, tidy⟩

theorem tidies_toExpr {v : Value} (tidy : AllTidy v) : Tidies v.toExpr := by
  obtain ⟨e, rfl, tidy⟩ := tidy
  exact .ok tidy

def SoundIsolator (isolator : Isolator) : Prop := ∀ v, AllTidy v → Reliable (isolator v)

theorem inverseName?_spec {name inverse : String} (found : inverseName? name = some inverse) :
    Identifier inverse ∧ inverse ≠ "sqrt" ∧ givesList inverse = false := by
  unfold inverseName? at found
  split at found <;> cases found <;> decide

theorem reliable_callOne {name : String} (called : Identifier name ∧ name ≠ "sqrt" ∧ givesList name = false)
    {v : Value} (tidy : AllTidy v) : Reliable (Engine.call name [v]) := by
  obtain ⟨e, rfl, tidy⟩ := tidy
  have each : ∀ a ∈ [e], Tidy a := fun a member => List.mem_singleton.mp member ▸ tidy
  refine (Related.call called.1 called.2.1 each).imp fun v w answer => ?_
  obtain ⟨r, rfl⟩ := answer.single called.2.2
  exact ⟨answer.same, r, rfl, answer.tidy r rfl⟩

theorem allTidy_withNegative {e : Expr} (tidy : Tidy e) : AllTidy (withNegative e) :=
  allTidy_cons.mpr ⟨allTidy_expr tidy, allTidy_singleton (allTidy_expr tidy.neg)⟩

theorem reliable_inverseRule {name : String} {rule : Value → Engine (List Value)}
    (found : inverseRule? name = some rule) {v : Value} (tidy : AllTidy v) : Reliable (rule v) := by
  unfold inverseRule? at found
  split at found <;> try cases found
  next inverse known =>
    exact (reliable_callOne (inverseName?_spec known) tidy).bind fun _ result => .pure (allTidy_singleton result)
  · refine (reliable_callOne (by decide) tidy).bind fun _ result => (tidies_toExpr result).lift.bind fun _ first => ?_
    refine (Tidy.circleConstant.sub first).lift.bind fun _ second => .pure ?_
    exact allTidy_cons.mpr ⟨allTidy_expr first, allTidy_singleton (allTidy_expr second)⟩
  · exact (reliable_callOne (by decide) tidy).bind fun _ result => (tidies_toExpr result).lift.bind fun _ first =>
      .pure (allTidy_withNegative first)
  · exact (reliable_callOne (by decide) tidy).bind fun _ result => (tidies_toExpr result).lift.bind fun _ first =>
      .pure (allTidy_withNegative first)
  · exact (tidies_toExpr tidy).lift.bind fun _ e => (Tidy.naturalBase.pow e).lift.bind fun _ power =>
      .pure (allTidy_singleton (allTidy_expr power))
  · exact (tidies_toExpr tidy).lift.bind fun _ e => .pure (allTidy_withNegative e)

theorem tidies_rootsOfPower {v : Value} (tidy : AllTidy v) (p : Rat) : Tidies (rootsOfPower v p) := by
  refine (tidies_toExpr tidy).bind fun _ e => (Tidy.powRat e _).bind fun _ value => .ok ?_
  split
  · exact allTidy_withNegative value
  · exact allTidy_singleton (allTidy_expr value)

namespace SoundIsolator

variable {inner : Isolator} {x : String}

theorem each (sound : SoundIsolator inner) {targets : List Value} (tidy : AllTidy targets) :
    Reliable (isolateEach inner targets) := by
  induction targets with
  | nil => exact .pure (allTidy_some.mpr allTidy_nil)
  | cons v rest ih =>
    obtain ⟨tidyV, tidyRest⟩ := allTidy_cons.mp tidy
    refine (sound v tidyV).bind fun found? tidyFound => ?_
    split
    · exact .pure allTidy_none
    refine (ih tidyRest).bind fun others? tidyOthers => ?_
    split
    · exact .pure allTidy_none
    · exact .pure (allTidy_some.mpr (allTidy_append (allTidy_some.mp tidyFound) (allTidy_some.mp tidyOthers)))

theorem watched (sound : SoundIsolator inner) : SoundIsolator (isolateWatched inner) := fun v tidy =>
  Alike.poll.bind fun _ _ => sound v tidy

theorem power (sound : SoundIsolator inner) (p : Rat) : SoundIsolator (isolatePower p inner) := fun v tidy =>
  Alike.ite (fun _ => sound v tidy) fun _ => (tidies_rootsOfPower tidy p).lift.bind fun _ roots =>
    sound.watched.each roots

theorem scaled (sound : SoundIsolator inner) (c p : Rat) : SoundIsolator (isolateScaled c p inner) := fun v tidy =>
  Alike.ite (fun _ => sound.power p v tidy) fun _ => (tidies_toExpr tidy).lift.bind fun _ e =>
    (Tidy.div e (.number c)).lift.bind fun _ quotient => (sound.power p).watched _ (allTidy_expr quotient)

theorem call {name : String} {args : List Isolator} (sound : ∀ isolator ∈ args, SoundIsolator isolator) :
    SoundIsolator (isolateCall name args) := by
  intro v tidy
  unfold isolateCall
  split
  next inner rule found =>
    refine Alike.bind (Alike.attempt ?_ (reliable_inverseRule found tidy)) fun values? tidyValues => ?_
    · rintro fault (kind | kind | kind) <;> simp [kind]
    split
    · exact .pure (allTidy_some.mpr allTidy_nil)
    · exact (sound inner (by simp)).each (allTidy_some.mp tidyValues)
  next => exact .pure allTidy_none

theorem mem_of_onlyPart? {parts : List Expr} {isolators : List Isolator} {part : Expr × Isolator}
    (found : onlyPart? x parts isolators = some part) : part ∈ parts.zip isolators := by
  unfold onlyPart? at found
  split at found
  next only single =>
    cases found
    exact (List.mem_filter.mp (single ▸ List.mem_singleton_self _)).1
  next => cases found

theorem sum {terms : List Expr} {isolators : List Isolator} (sound : ∀ isolator ∈ isolators, SoundIsolator isolator)
    (tidy : Tidy (.sum 1 terms 1)) : SoundIsolator (isolateSum x terms isolators) := by
  intro v tidyV
  unfold isolateSum
  split
  · exact .pure allTidy_none
  next term inner found =>
    have member := List.of_mem_zip (mem_of_onlyPart? found)
    refine (tidy.sub (tidy.terms term member.1)).lift.bind fun _ rest => (tidies_toExpr tidyV).lift.bind fun _ e => ?_
    exact (Tidy.sub e rest).lift.bind fun _ difference => sound inner member.2 _ (allTidy_expr difference)

theorem product {factors : List Expr} {isolators : List Isolator}
    (sound : ∀ isolator ∈ isolators, SoundIsolator isolator) (tidy : Tidy (.product 1 factors)) :
    SoundIsolator (isolateProduct x factors isolators) := by
  intro v tidyV
  unfold isolateProduct
  split
  · exact .pure allTidy_none
  next factor inner found =>
    have member := List.of_mem_zip (mem_of_onlyPart? found)
    refine (tidy.div (tidy.each factor member.1)).lift.bind fun _ rest => (tidies_toExpr tidyV).lift.bind fun _ e => ?_
    exact (Tidy.div e rest).lift.bind fun _ quotient => sound inner member.2 _ (allTidy_expr quotient)

theorem exponential {base exponent : Expr} {inBase inExponent : Isolator} (soundBase : SoundIsolator inBase)
    (soundExponent : SoundIsolator inExponent) (tidyBase : Tidy base) (tidyExponent : Tidy exponent) :
    SoundIsolator (isolateExponential x base exponent inBase inExponent) := by
  intro v tidyV
  refine Alike.ite (fun _ => .pure allTidy_none) fun _ => (tidies_toExpr tidyV).lift.bind fun target tidyTarget => ?_
  refine Alike.ite (fun _ => ?_) fun _ => Alike.ite (fun _ => ?_) fun _ => Alike.ite (fun _ => ?_) fun _ => ?_
  · refine tidyExponent.inv.lift.bind fun _ inverse => (Tidy.pow tidyTarget inverse).lift.bind fun _ power => ?_
    exact soundBase _ (allTidy_expr power)
  · exact .pure (allTidy_some.mpr allTidy_nil)
  · exact (reliable_callOne (by decide) (allTidy_expr tidyTarget)).bind fun v => soundExponent v
  · refine (Tidy.apply tidyTarget (by decide)).bind fun _ top => (tidyBase.apply (by decide)).bind fun _ bottom => ?_
    exact (Tidy.div top bottom).lift.bind fun _ quotient => soundExponent _ (allTidy_expr quotient)

end SoundIsolator

theorem soundIsolator {e : Expr} (tidy : Tidy e) (x : String) : SoundIsolator (isolate x e) := by
  have none : Reliable (return none : Engine (Option (List Value))) := .pure allTidy_none
  have all {es : List Expr} (sound : ∀ e ∈ es, SoundIsolator (isolate x e)) :
      ∀ isolator ∈ isolateAll x es, SoundIsolator isolator := by
    induction es with
    | nil => exact nofun
    | cons e rest ih =>
      refine List.forall_mem_cons.mpr ⟨sound e List.mem_cons_self, ih fun f later => ?_⟩
      exact sound f (List.mem_cons_of_mem e later)
  induction e using Expr.induction with
  | number c => exact fun v _ => Alike.poll.bind fun _ _ => none
  | symbol c name p =>
    intro v tidyV
    refine Alike.poll.bind fun _ _ => Alike.ite (fun _ => SoundIsolator.scaled (fun v tidyV => ?_) c p v tidyV) fun _ => none
    exact .pure (allTidy_some.mpr (allTidy_singleton tidyV))
  | call c name args p ih =>
    intro v tidyV
    refine Alike.poll.bind fun _ _ => Alike.ite (fun _ => ?_) fun _ => none
    exact SoundIsolator.scaled (.call (all fun a member => ih a member (tidy.args a member))) c p v tidyV
  | sum c terms p ih =>
    intro v tidyV
    refine Alike.poll.bind fun _ _ => Alike.ite (fun _ => ?_) fun _ => none
    exact SoundIsolator.scaled (.sum (all fun t member => ih t member (tidy.terms t member)) tidy.plain) c p v tidyV
  | product c factors ih =>
    intro v tidyV
    refine Alike.poll.bind fun _ _ => Alike.ite (fun _ => ?_) fun _ => none
    exact SoundIsolator.scaled (.product (all fun f member => ih f member (tidy.each f member)) tidy.unit) c 1 v tidyV
  | exponential c base exponent ihBase ihExponent =>
    intro v tidyV
    refine Alike.poll.bind fun _ _ => Alike.ite (fun _ => ?_) fun _ => none
    exact SoundIsolator.scaled (.exponential (ihBase tidy.base) (ihExponent tidy.exponent) tidy.base tidy.exponent)
      c 1 v tidyV
  | foreign => exact tidy.formed.elim

namespace Tidy

variable {e : Expr} {x : String}

theorem algebraicRoots? (tidy : Tidy e) (x : String) : Reliable (e.algebraicRoots? x) := by
  refine (tidy.poly? x).bind fun p? _ => ?_
  split
  · exact (Poly.reliable_roots _).bind fun _ roots => .pure (allTidy_some.mpr roots)
  refine (tidy.coeffs? x).bind fun cs? tidyAll => ?_
  split
  next b a =>
    have each := allTidy_some.mp tidyAll
    exact (tidies_linearRoots (each b (by simp)) (each a (by simp))).lift.bind fun _ roots =>
      .pure (allTidy_some.mpr roots)
  next c b a =>
    have each := allTidy_some.mp tidyAll
    exact (reliable_quadraticRoots (each c (by simp)) (each b (by simp)) (each a (by simp))).bind fun _ roots =>
      .pure (allTidy_some.mpr roots)
  · exact .pure allTidy_none

theorem scannedRoots (tidy : Tidy e) (named : Identifier x) : Reliable (e.scannedRoots x) := by
  have proper (fault : Fault) (limit : IsLimit fault) : (fault.kind == .validation) = false := by
    rcases limit with kind | kind | kind <;> simp [kind]
  have formula (e : Expr) : Reliable (liftM (Formula.ofExpr e) : Engine Formula) := .lift fun _ _ => trivial
  refine Alike.settings.bind fun settings _ => Alike.ite (fun _ => .pure allTidy_nil) fun _ => ?_
  refine Alike.bind (Alike.attempt proper (formula e)) fun formula? _ => ?_
  split
  · exact .pure allTidy_nil
  refine Alike.bind (Alike.attempt proper ?_) fun slope? _ => ?_
  · exact (tidy.diff (fun y same => Option.some.inj same ▸ named) 1).bind fun slope _ => formula slope
  refine Numeric.reliable_findRealRoots.bind fun roots _ => Alike.mapM fun root _ => ?_
  exact (Numeric.reliable_toRational root).bind fun _ _ => .pure (number _)

theorem toExprs {values : List Value} (tidy : AllTidy values) : Tidies (Value.toExprs values) :=
  Tidies.mapM fun v member => tidies_toExpr (tidy v member)

theorem reliable_checkAll (es : List Expr) : Reliable (es.forM fun e => liftM e.checkOpen : Engine Unit) := by
  induction es with
  | nil => exact .pure trivial
  | cons e rest ih => exact Alike.lift_bind fun _ _ => ih

theorem transcendentalRoots (tidy : Tidy e) (named : Identifier x) : Reliable (e.transcendentalRoots x) := by
  refine (soundIsolator tidy x _ (allTidy_expr (number 0))).bind fun roots? tidyRoots => ?_
  split
  next roots =>
    refine (toExprs (allTidy_some.mp tidyRoots)).lift.bind fun roots tidyRoots => ?_
    refine (reliable_checkAll roots).bind fun _ _ => .pure fun root member => tidyRoots root (List.mem_filter.mp member).1
  next => exact tidy.scannedRoots named

theorem rootsOfFactor (tidy : Tidy e) (named : Identifier x) : Reliable (Expr.rootsOfFactor x e) := by
  refine Alike.poll.bind fun _ _ => Alike.ite (fun _ => .pure allTidy_nil) fun _ => ?_
  refine (tidy.algebraicRoots? x).bind fun roots? tidyRoots => ?_
  split
  next roots => exact .pure (allTidy_some.mp tidyRoots : AllTidy roots)
  next => exact tidy.transcendentalRoots named

theorem vanishingFactors (tidy : Tidy e) (named : Identifier x) : ∀ f ∈ e.vanishingFactors x, Tidy f := by
  intro f member
  obtain ⟨f, inside, rfl⟩ := List.mem_map.mp member
  obtain ⟨inside, chosen⟩ := List.mem_filter.mp inside
  refine (tidy.factors f inside).stem ?_
  cases f with
  | symbol c name p =>
    obtain rfl : name = x := by simpa [contains] using (Bool.and_eq_true_iff.mp chosen).1
    exact Reader.isIntegerText_identifier named
  | _ => rfl

theorem rootsOf (tidy : Tidy e) (named : Identifier x) : Reliable (Expr.rootsOf x e) := by
  refine Alike.poll.bind fun _ _ => Alike.ite (fun _ => .pure allTidy_nil) fun _ => ?_
  refine (tidy.algebraicRoots? x).bind fun roots? tidyRoots => ?_
  split
  next roots => exact .pure (allTidy_some.mp tidyRoots : AllTidy roots)
  next =>
    have others (found : List Expr) : AllTidy found → Reliable (do
        if found.isEmpty then e.transcendentalRoots x else return found : Engine (List Expr)) := fun tidyFound =>
      Alike.ite (fun _ => tidy.transcendentalRoots named) fun _ => .pure tidyFound
    refine Alike.ite (fun _ => ?_) fun _ => Alike.bind (.pure allTidy_nil) others
    refine (Alike.mapM fun f member => (tidy.vanishingFactors named f member).rootsOfFactor named).bind
      fun roots tidyRoots => Alike.bind (.pure fun root member => ?_) others
    obtain ⟨found, inside, member⟩ := List.mem_flatten.mp member
    exact tidyRoots found inside root member

theorem vanishesAt (tidy : Tidy e) {root : Expr} (tidyRoot : Tidy root) (x : String) :
    Reliable (e.vanishesAt x root) := by
  refine Alike.bind (Alike.attempt ?_ ((tidy.substitute tidyRoot).bind fun _ value => Tidy.expand value))
    fun value? _ => ?_
  · rintro fault (kind | kind | kind) <;> simp [kind]
  · split <;> exact .pure trivial

theorem distinct {es : List Expr} (tidy : ∀ e ∈ es, Tidy e) : Tidies (Expr.distinct es) := fun _ returned e member =>
  tidy e ((distinct_spec returned).2.1 e member)

theorem solve (tidy : Tidy e) {given : Option String} (named : ∀ x ∈ given, Identifier x) :
    Reliable (e.solve given) := by
  refine Alike.guarded (Alike.lift_bind fun _ _ => ?_)
  split
  · exact .pure allTidy_nil
  next x found =>
    have identifier := tidy.unknown named found
    refine Alike.ite (fun _ => .pure allTidy_nil) fun _ => tidy.together.bind fun parts ⟨top, bottom⟩ => ?_
    refine (Tidy.rootsOf top identifier).bind fun roots tidyRoots => ?_
    refine Alike.branch (fun _ => ?_) (fun _ => .pure tidyRoots) fun roots tidyRoots => (distinct tidyRoots).lift
    exact Alike.filterM tidyRoots fun root member =>
      (Tidy.vanishesAt bottom (tidyRoots root member) x).bind fun _ _ => .pure trivial

end Tidy

end Expr

theorem Value.reliable_solve {e : Expr} (tidy : Tidy e) {given : Option String} (named : ∀ x ∈ given, Identifier x) :
    Reliable ((Value.expr e).solve given) := by
  refine Alike.guarded (Alike.lift_bind fun zero found => ?_)
  cases found
  exact tidy.solve named

end ExactAlgebra
