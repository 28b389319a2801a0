import ExactAlgebra.Algebra.Simplification
import ExactAlgebra.Proofs.Determinism
import Mathlib

/-! The algebra is reliable: for tidy expressions all runs of one session give the same tidy results. -/
namespace ExactAlgebra
open Engine

theorem Tidies.lift {α : Type} [HoldsExprs α] {x : Except Fault α} (tidies : Tidies x) :
    Reliable (liftM x : Engine α) := Alike.lift tidies

namespace Expr.Tidy

variable {a b e : Expr} {x : String}

theorem distribute (tidyA : Tidy a) (tidyB : Tidy b) : Reliable (Expr.distribute a b) := by
  unfold Expr.distribute
  refine Alike.bind (Alike.foldlM (number 0) fun total tidyTotal s left => Alike.foldlM tidyTotal
    fun total tidyTotal t right => ?_) fun total (tidyTotal : Tidy total) => .pure (tidyTotal.scale _)
  refine Alike.poll.bind fun _ _ => ?_
  have tidyS := keptByExpansion.summand tidyA s left
  have tidyT := keptByExpansion.summand tidyB t right
  exact (tidyS.mul tidyT).lift.bind fun product tidyProduct => (tidyTotal.add tidyProduct).lift

theorem distributeTimes (tidyA : Tidy a) (tidyB : Tidy b) (n : ℕ) :
    Reliable (Expr.distributeTimes a b n) := by
  induction n generalizing a with
  | zero => exact .pure tidyA
  | succ n ih => exact (tidyA.distribute tidyB).bind fun next tidyNext => ih tidyNext

theorem expandPower (tidy : Tidy a) (p : Rat) : Reliable (Expr.expandPower a p) := by
  unfold Expr.expandPower
  split
  · exact .pure tidy
  split
  · exact tidy.distributeTimes tidy _
  · exact (tidy.powRat p).lift

theorem expandTree (tidy : Tidy e) : Reliable (Expr.expandTree e) := by
  induction e using Expr.induction with
  | number c => exact .pure tidy
  | symbol c name p => exact .pure tidy
  | call c name args p ih =>
    have all : ∀ es : List Expr, (∀ a ∈ es, Reliable (Expr.expandTree a)) → Reliable (expandAll es) := by
      intro es each
      induction es with
      | nil => exact .pure allTidy_nil
      | cons a rest ih =>
        refine (each a List.mem_cons_self).bind fun first tidyFirst => ?_
        refine (ih fun b later => each b (List.mem_cons_of_mem _ later)).bind fun others tidyOthers => ?_
        exact .pure (allTidy_cons.mpr ⟨tidyFirst, tidyOthers⟩)
    exact (all args fun a member => ih a member (tidy.args a member)).bind fun expanded tidyExpanded =>
      .pure (tidy.call tidyExpanded)
  | sum c terms p ih =>
    rw [Expr.expandTree, expandSum_eq]
    refine (Alike.foldlM (number 0) fun total tidyTotal t member => ?_).bind fun total tidyTotal =>
      (tidyTotal.expandPower p).bind fun power tidyPower => .pure (tidyPower.scale c)
    exact (ih t member (tidy.terms t member)).bind fun expanded tidyExpanded =>
      (tidyTotal.add tidyExpanded).lift
  | product c factors ih =>
    rw [expandTree_product]
    refine Alike.foldlM (number c) fun result tidyResult f member => ?_
    have inside := (sortFactors_perm factors).mem_iff.mp member
    exact (ih f inside (tidy.each f inside)).bind fun expanded tidyExpanded =>
      tidyResult.distribute tidyExpanded
  | exponential c base exponent ihBase ihExponent =>
    refine (ihBase tidy.base).bind fun base tidyBase => ?_
    refine (ihExponent tidy.exponent).bind fun exponent tidyExponent => ?_
    exact (tidyBase.pow tidyExponent).lift.bind fun power tidyPower => .pure (tidyPower.scale c)
  | foreign => exact tidy.formed.elim

theorem expand (tidy : Tidy e) : Reliable e.expand := tidy.expandTree.guarded

def Leaves (leaf : String → Option Value) : Prop := ∀ name e, leaf name = some (.expr e) → Tidy e

theorem leafOf {leaf : String → Option Value} (leaves : Leaves leaf) {c p : Rat} {name : String}
    (formed : (symbol c name p).WellFormed) : Tidies (Expr.leafOf leaf name) := by
  unfold Expr.leafOf
  split
  next e found =>
    split
    · exact .ok (leaves name e found)
    · exact .error _
  · exact .error _
  · refine .ok ?_
    split
    next => exact number _
    next digits => exact bare (formed.2.2.1.resolve_right digits)

/-- Whatever is rebuilt becomes tidy. -/
theorem rebuild_wellFormed {leaf : String → Option Value} (leaves : Leaves leaf) (formed : e.WellFormed) :
    Reliable (Expr.rebuild leaf e) := by
  induction e using Expr.induction with
  | number c => exact .pure (number c)
  | symbol c name p =>
    refine (leafOf leaves formed).lift.bind fun value tidyValue => ?_
    exact (tidyValue.powRat p).lift.bind fun power tidyPower => .pure (tidyPower.scale c)
  | call c name args p ih =>
    have all : ∀ es : List Expr, (∀ a ∈ es, Reliable (Expr.rebuild leaf a)) →
        Reliable (rebuildAll leaf es) := by
      intro es each
      induction es with
      | nil => exact .pure allTidy_nil
      | cons a rest ih =>
        refine (each a List.mem_cons_self).bind fun first tidyFirst => ?_
        refine (ih fun b later => each b (List.mem_cons_of_mem _ later)).bind fun others tidyOthers => ?_
        exact .pure (allTidy_cons.mpr ⟨tidyFirst, tidyOthers⟩)
    have each := fun a member => ih a member (allWellFormed_iff.mp formed.2.2.2.2 a member)
    refine (all args each).bind fun built tidyBuilt => ?_
    refine (Alike.callExpr formed.2.2.1 formed.2.2.2.1 tidyBuilt).bind fun result tidyResult => ?_
    exact (tidyResult.powRat p).lift.bind fun power tidyPower => .pure (tidyPower.scale c)
  | sum c terms p ih =>
    rw [Expr.rebuild, rebuildSum_eq]
    refine (Alike.foldlM (number 0) fun total tidyTotal t member => ?_).bind fun total tidyTotal =>
      (tidyTotal.powRat p).lift.bind fun power tidyPower => .pure (tidyPower.scale c)
    have formedT := allWellFormed_iff.mp formed.2.2.2 t member
    exact (ih t member formedT).bind fun built tidyBuilt => (tidyTotal.add tidyBuilt).lift
  | product c factors ih =>
    rw [Expr.rebuild, rebuildProduct_eq]
    refine Alike.foldlM (number c) fun result tidyResult f member => ?_
    have formedF := allWellFormed_iff.mp formed.2.2 f member
    exact (ih f member formedF).bind fun built tidyBuilt => (tidyResult.mul tidyBuilt).lift
  | exponential c base exponent ihBase ihExponent =>
    refine (ihBase formed.2.2.1).bind fun base tidyBase => ?_
    refine (ihExponent formed.2.2.2).bind fun exponent tidyExponent => ?_
    exact (tidyBase.pow tidyExponent).lift.bind fun power tidyPower => .pure (tidyPower.scale c)
  | foreign => exact formed.elim

theorem rebuild {leaf : String → Option Value} (leaves : Leaves leaf) (tidy : Tidy e) :
    Reliable (Expr.rebuild leaf e) := rebuild_wellFormed leaves tidy.formed

theorem substitute (tidy : Tidy e) {value : Expr} (tidyValue : Tidy value) :
    Reliable (e.substitute x value) := by
  refine tidy.rebuild fun name e found => ?_
  split at found
  · cases found
    exact tidyValue
  · cases found

theorem canonicalize_wellFormed (formed : e.WellFormed) : Reliable e.canonicalize :=
  rebuild_wellFormed (fun _ _ found => nomatch found) formed

theorem canonicalize (tidy : Tidy e) : Reliable e.canonicalize := canonicalize_wellFormed tidy.formed

theorem termDegree? (tidy : Tidy e) : Tidies (Expr.termDegree? x e) := by
  unfold Expr.termDegree?
  split
  · exact .ok (allTidy_some.mpr ⟨tidy, trivial⟩)
  split
  · refine .ok fun pair member => ?_
    obtain ⟨n, -, rfl⟩ := Option.map_eq_some_iff.mp member
    exact ⟨number _, trivial⟩
  next c factors _ =>
    split
    · exact .ok allTidy_none
    · refine ((number c).mulAll fun f member => tidy.each f (List.mem_filter.mp member).1).bind
        fun rest tidyRest => ?_
      split
      · exact .ok allTidy_none
      · exact .ok (allTidy_some.mpr ⟨tidyRest, trivial⟩)
  · exact .ok allTidy_none

theorem addAt {n : ℕ} {cs : List Expr} (tidy : Tidy e) (tidyAll : AllTidy cs) : Tidies (Expr.addAt n e cs) := by
  induction n generalizing cs with
  | zero =>
    cases cs with
    | nil => exact .ok (allTidy_singleton tidy)
    | cons c cs =>
      obtain ⟨tidyC, tidyRest⟩ := allTidy_cons.mp tidyAll
      exact (tidyC.add tidy).bind fun sum tidySum => .ok (allTidy_cons.mpr ⟨tidySum, tidyRest⟩)
  | succ n ih =>
    cases cs with
    | nil => exact (ih allTidy_nil).bind fun cs tidyRest => .ok (allTidy_cons.mpr ⟨number 0, tidyRest⟩)
    | cons c cs =>
      obtain ⟨tidyC, tidyRest⟩ := allTidy_cons.mp tidyAll
      exact (ih tidyRest).bind fun cs tidyRest => .ok (allTidy_cons.mpr ⟨tidyC, tidyRest⟩)

theorem collect {terms collected : List Expr} (tidy : AllTidy terms) (before : AllTidy collected) :
    Tidies (Expr.collect x collected terms) := by
  induction terms generalizing collected with
  | nil => exact .ok (allTidy_some.mpr before)
  | cons t rest ih =>
    obtain ⟨tidyT, tidyRest⟩ := allTidy_cons.mp tidy
    refine (termDegree? tidyT).bind fun term? tidyTerm => ?_
    cases term? with
    | none => exact .ok allTidy_none
    | some term => exact (addAt (allTidy_some.mp tidyTerm).1 before).bind fun cs tidyAll => ih tidyRest tidyAll

theorem dropZeroTail {cs : List Expr} (tidy : AllTidy cs) : AllTidy (Expr.dropZeroTail cs) := by
  induction cs with
  | nil => exact tidy
  | cons c cs ih =>
    obtain ⟨tidyC, tidyRest⟩ := allTidy_cons.mp tidy
    have shorter := ih tidyRest
    unfold Expr.dropZeroTail
    split
    · exact allTidy_singleton tidyC
    next d last =>
      rw [last] at shorter
      split
      · exact allTidy_singleton tidyC
      · exact allTidy_cons.mpr ⟨tidyC, shorter⟩
    · exact allTidy_cons.mpr ⟨tidyC, shorter⟩

theorem coeffs? (tidy : Tidy e) (x : String) : Reliable (e.coeffs? x) := by
  refine tidy.expand.bind fun expanded tidyExpanded => ?_
  refine (collect tidyExpanded.spreadTerms allTidy_nil).lift.bind fun cs? tidyAll => ?_
  cases cs? with
  | none => exact .pure allTidy_none
  | some cs => exact .pure (allTidy_some.mpr (dropZeroTail (allTidy_some.mp tidyAll)))

theorem stripCoefficient (tidy : Tidy e) (x : String) : Tidies (e.stripCoefficient x) := by
  refine .bind_eq fun _ _ => ?_
  split
  · exact .ok ⟨tidy, number 1⟩
  split
  next c factors _ _ =>
    refine ((number c).mulAll fun f member => tidy.each f (List.mem_filter.mp member).1).bind
      fun coefficient tidyCoefficient => ?_
    exact ((number 1).mulAll fun f member => tidy.each f (List.mem_filter.mp member).1).bind
      fun rest tidyRest => .ok ⟨tidyCoefficient, tidyRest⟩
  · exact .ok ⟨number _, tidy.unit⟩

theorem linear? (tidy : Tidy e) (x : String) : Reliable (e.linear? x) := by
  refine (tidy.coeffs? x).bind fun cs? tidyAll => ?_
  split
  next b a =>
    have tidyA := allTidy_some.mp tidyAll
    split
    · exact .pure allTidy_none
    · exact .pure (allTidy_some.mpr ⟨tidyA a (by simp), tidyA b (by simp)⟩)
  · exact .pure allTidy_none

theorem completeSquare? (tidy : Tidy e) (x : String) : Reliable (e.completeSquare? x) := by
  refine (tidy.coeffs? x).bind fun cs? tidyAll => ?_
  split
  next c b a =>
    have each := allTidy_some.mp tidyAll
    have tidyA : Tidy a := each a (by simp)
    have tidyB : Tidy b := each b (by simp)
    have tidyC : Tidy c := each c (by simp)
    refine ((number 2).mul tidyA).lift.bind fun twice tidyTwice => ?_
    refine (tidyB.div tidyTwice).lift.bind fun h tidyH => ?_
    refine (tidyB.mul tidyB).lift.bind fun square tidySquare => ?_
    refine ((number 4).mul tidyA).lift.bind fun times tidyTimes => ?_
    refine (tidySquare.div tidyTimes).lift.bind fun share tidyShare => ?_
    exact (tidyC.sub tidyShare).lift.bind fun k tidyK => .pure (allTidy_some.mpr ⟨tidyA, tidyH, tidyK⟩)
  · exact .pure allTidy_none

theorem poly? (tidy : Tidy e) (x : String) : Reliable (e.poly? x) := by
  refine (tidy.coeffs? x).bind fun cs? _ => ?_
  cases cs? with
  | none => exact .pure allTidy_none
  | some cs => exact .pure fun _ _ => trivial

end Expr.Tidy

namespace Expr.WellFormed

variable {x : String} {e : Expr}

theorem names (formed : e.WellFormed) : NamesHave (fun name => Identifier name ∨ isIntegerText name = true) e := by
  induction e using Expr.induction with
  | number c => exact .number c
  | symbol c name p => exact .symbol formed.2.2.1
  | call c name args p ih =>
    exact namesAll_have.mpr fun a member => ih a member (allWellFormed_iff.mp formed.2.2.2.2 a member)
  | sum c terms p ih =>
    exact NamesHave.sum.mpr fun t member => ih t member (allWellFormed_iff.mp formed.2.2.2 t member)
  | product c factors ih =>
    exact NamesHave.product.mpr fun f member => ih f member (allWellFormed_iff.mp formed.2.2 f member)
  | exponential c base exponent ihBase ihExponent =>
    exact NamesHave.exponential.mpr ⟨ihBase formed.2.2.1, ihExponent formed.2.2.2⟩
  | foreign => exact formed.elim

theorem identifier (formed : e.WellFormed) (member : x ∈ e.names) (unknown : isVariableName x = true) :
    Identifier x := by
  refine (formed.names x member).resolve_right fun digits => ?_
  rw [isVariableName, digits, Bool.not_true, Bool.and_false] at unknown
  cases unknown

end Expr.WellFormed

/-- The names are names of variables, as they occur in well-formed expressions. -/
theorem Expr.identifier_of_sortNames {names : List String} {x : String}
    (each : ∀ name ∈ names, Expr.Identifier name) (member : x ∈ Expr.sortNames names) : Expr.Identifier x := by
  rw [Expr.sortNames, List.mem_eraseDups] at member
  exact each x (List.mem_mergeSort.mp member)

theorem Expr.WellFormed.freeNames {e : Expr} (formed : e.WellFormed) : ∀ x ∈ e.freeNames, Expr.Identifier x :=
  fun _ member => Expr.identifier_of_sortNames
    (fun _ inside => formed.identifier (List.mem_filter.mp inside).1 (List.mem_filter.mp inside).2) member

theorem Expr.Tidy.freeNames {e : Expr} (tidy : Expr.Tidy e) : ∀ x ∈ e.freeNames, Expr.Identifier x :=
  tidy.formed.freeNames

namespace Poly

theorem tidies_addTerms {x : String} (named : Expr.Identifier x) {n : ℕ} {result : Expr} (tidy : result.Tidy)
    (cs : List Rat) : Tidies (addTerms x n result cs) := by
  induction cs generalizing n result with
  | nil => exact .ok tidy
  | cons c cs ih =>
    unfold addTerms
    split
    · exact ih tidy
    · have after {power : Expr} (tidyPower : power.Tidy) : Tidies (do
          addTerms x (n + 1) (← result.add (power.scale c)) cs) :=
        (tidy.add (tidyPower.scale c)).bind fun total tidyTotal => ih tidyTotal
      split
      · exact after (.number 1)
      · exact ((Expr.Tidy.bare named).powRat _).bind fun power tidyPower => after tidyPower

theorem tidies_toExpr (p : Poly) {x : String} (named : Expr.Identifier x) : Tidies (p.toExpr x) :=
  tidies_addTerms named (.number 0) _

theorem reliable_division (p d : Poly) : Reliable (p.division d) := by
  refine Alike.lift_bind fun result _ => ?_
  exact (Alike.pollSteps _).bind fun _ _ => .pure ⟨trivial, trivial⟩

theorem reliable_quotient (p d : Poly) : Reliable (p.quotient d) :=
  (p.reliable_division d).bind fun _ _ => .pure trivial

theorem reliable_commonDivisor (p q : Poly) : Reliable (p.commonDivisor q) :=
  (Alike.pollSteps _).bind fun _ _ => .pure trivial

theorem reliable_candidateLimit (search : RootSearch) : Reliable (candidateLimit search) := by
  unfold candidateLimit
  split
  · refine (Alike.setting _).bind fun limit _ => ?_
    refine Alike.lift_bind fun below _ => ?_
    split
    · exact .pure trivial
    · exact Alike.lift_bind fun whole _ => .pure trivial
  · exact .pure trivial

theorem reliable_searchLimit (p : Poly) : Reliable p.searchLimit := by
  unfold searchLimit
  split
  · exact .pure trivial
  split
  · exact .pure trivial
  next search _ =>
    refine (Alike.pollSteps _).bind fun _ _ => ?_
    refine (reliable_candidateLimit search).bind fun limit _ => ?_
    exact (Alike.pollSteps _).bind fun _ _ => .pure trivial

theorem reliable_findRoots (p : Poly) : Reliable p.findRoots :=
  p.reliable_searchLimit.bind fun _ _ => .pure fun _ _ => trivial

theorem reliable_findFactors (p : Poly) : Reliable p.findFactors := by
  refine (reliable_searchLimit _).bind fun limit _ => ?_
  exact (Alike.pollSteps _).bind fun _ _ => .pure ⟨trivial, fun _ _ => ⟨trivial, trivial⟩⟩

end Poly

namespace Expr.Tidy

variable {a b e : Expr} {x : String}

theorem splitFraction (tidy : Tidy e) : Tidies e.splitFraction := by
  unfold Expr.splitFraction
  split
  next c factors =>
    refine ((number c).mulAll fun f member => tidy.each f (List.mem_filter.mp member).1).bind
      fun numerator tidyAbove => ?_
    refine Tidies.bind (Tidies.mapM fun f member => ?_) fun below (tidyBelow : ∀ f ∈ below, Tidy f) => ?_
    · exact (tidy.each f (List.mem_filter.mp member).1).powRat _
    · exact ((number 1).mulAll tidyBelow).bind fun denominator tidyDenominator =>
        .ok ⟨tidyAbove, tidyDenominator⟩
  next =>
    split
    · exact (tidy.unit.powRat _).bind fun power tidyPower => .ok ⟨number _, tidyPower⟩
    · exact .ok ⟨tidy, number 1⟩

theorem together (tidy : Tidy e) : Reliable e.together := by
  refine tidy.expand.bind fun expanded tidyExpanded => ?_
  refine Alike.bind (Alike.mapM fun t member => (tidyExpanded.spreadTerms t member).splitFraction.lift)
    fun parts (tidyParts : ∀ part ∈ parts, Tidy part.1 ∧ Tidy part.2) => ?_
  have below : ∀ f ∈ parts.flatMap (fun part => part.2.factors), Tidy f := by
    intro f member
    obtain ⟨part, inside, factor⟩ := List.mem_flatMap.mp member
    exact (tidyParts part inside).2.factors f factor
  dsimp only
  split
  · exact .throw_bind _
  refine ((number 1).mulAll fun f member => ?_).lift.bind fun denominator tidyDenominator => ?_
  · obtain ⟨g, inside, rfl⟩ := List.mem_map.mp member
    exact below g.2 ((mem_foldl_raiseCommon inside).resolve_right List.not_mem_nil)
  refine Alike.bind (Alike.foldlM (number 0) fun total tidyTotal part member => ?_)
    fun numerator (tidyNumerator : Tidy numerator) => .pure ⟨tidyNumerator, tidyDenominator⟩
  obtain ⟨tidyTop, tidyBottom⟩ := tidyParts part member
  refine Alike.poll.bind fun _ _ => ?_
  refine (tidyDenominator.div tidyBottom).lift.bind fun quotient tidyQuotient => ?_
  refine (tidyTop.mul tidyQuotient).lift.bind fun scaled tidyScaled => ?_
  exact tidyScaled.expand.bind fun expanded tidyExpanded => (tidyTotal.add tidyExpanded).lift

/-- The unknown that is given or found is an identifier. -/
theorem mainVariable? (tidy : Tidy e) {given : Option String} (named : ∀ x ∈ given, Identifier x)
    (found : e.mainVariable? given = some x) : Identifier x := by
  unfold Expr.mainVariable? at found
  split at found
  · exact named x found
  next single =>
    cases found
    exact tidy.freeNames x (single ▸ List.mem_singleton_self x)
  · cases found

theorem polyPair (tidyA : Tidy a) (tidyB : Tidy b) {operation : String} {given : Option String}
    (named : ∀ x ∈ given, Identifier x) :
    Related (fun p q => q = p ∧ Identifier p.2.2) (polyPair operation a b given) (polyPair operation a b given) := by
  unfold Expr.polyPair
  refine Related.lift_bind fun _ _ => Related.lift_bind fun _ _ => ?_
  dsimp only
  split
  · exact Related.throw _
  next x found =>
    have identifier : Identifier x := by
      rcases Option.or_eq_some_iff.mp found with here | ⟨-, other⟩
      · exact named x here
      · split at other
        next single =>
          cases other
          refine identifier_of_sortNames (fun name member => ?_) (single ▸ List.mem_singleton_self x)
          exact (List.mem_append.mp member).elim (tidyA.freeNames name) (tidyB.freeNames name)
        · cases other
    refine Related.bind (tidyA.poly? x) ?_
    rintro _ p ⟨rfl, -⟩
    refine Related.bind (tidyB.poly? x) ?_
    rintro _ q ⟨rfl, -⟩
    split
    · exact Related.pure ⟨rfl, identifier⟩
    · exact Related.throw _

theorem polyDivide (tidyA : Tidy a) (tidyB : Tidy b) {given : Option String}
    (named : ∀ x ∈ given, Identifier x) : Reliable (polyDivide a b given) := by
  refine Related.bind (tidyA.polyPair tidyB named) ?_
  rintro _ ⟨p, q, x⟩ ⟨rfl, identifier⟩
  refine (p.reliable_division q).bind fun result _ => ?_
  refine (result.1.tidies_toExpr identifier).lift.bind fun quotient tidyQuotient => ?_
  exact (result.2.tidies_toExpr identifier).lift.bind fun remainder tidyRemainder =>
    .pure ⟨tidyQuotient, tidyRemainder⟩

theorem polyGcd (tidyA : Tidy a) (tidyB : Tidy b) {given : Option String}
    (named : ∀ x ∈ given, Identifier x) : Reliable (polyGcd a b given) := by
  refine Alike.guarded ?_
  split
  · exact .pure (number _)
  · refine Related.bind (tidyA.polyPair tidyB named) ?_
    rintro _ ⟨p, q, x⟩ ⟨rfl, identifier⟩
    exact (p.reliable_commonDivisor q).bind fun common _ => (common.tidies_toExpr identifier).lift

theorem polyLcm (tidyA : Tidy a) (tidyB : Tidy b) {given : Option String}
    (named : ∀ x ∈ given, Identifier x) : Reliable (polyLcm a b given) := by
  refine Alike.guarded ?_
  split
  · exact .pure (number _)
  · refine Related.bind (tidyA.polyPair tidyB named) ?_
    rintro _ ⟨p, q, x⟩ ⟨rfl, identifier⟩
    dsimp only
    split
    · exact Alike.pure (number 0)
    · refine (p.reliable_commonDivisor q).bind fun common _ => ?_
      refine (Poly.reliable_division _ _).bind fun result _ => ?_
      exact (result.1.monic.tidies_toExpr identifier).lift

theorem squareCompletion (tidy : Tidy e) {given : Option String} (named : ∀ x ∈ given, Identifier x) :
    Reliable (e.squareCompletion given) := by
  refine Alike.guarded (Alike.lift_bind fun _ _ => ?_)
  split
  · exact Alike.lift_bind fun _ _ => .throw _
  next x found =>
    refine (tidy.completeSquare? x).bind fun square? tidySquare => ?_
    split
    · exact Alike.lift_bind fun _ _ => .throw _
    next a h k =>
      obtain ⟨tidyA, tidyH, tidyK⟩ := allTidy_some.mp tidySquare
      refine ((bare (tidy.mainVariable? named found)).add tidyH).lift.bind fun shifted tidyShifted => ?_
      refine (tidyShifted.powRat 2).lift.bind fun square tidySquare => ?_
      exact (tidyA.mul tidySquare).lift.bind fun scaled tidyScaled => (tidyScaled.add tidyK).lift

theorem addFractions {parts : List (Poly × Poly × ℕ)} (named : Identifier x) (tidy : Tidy e) :
    Tidies (Expr.addFractions x e parts) := by
  refine Tidies.foldlM tidy fun result tidyResult part _ => ?_
  dsimp only
  split
  · exact .ok tidyResult
  · refine (part.2.1.tidies_toExpr named).bind fun base tidyBase => ?_
    refine (tidyBase.powRat _).bind fun below tidyBelow => ?_
    refine (part.1.tidies_toExpr named).bind fun top tidyTop => ?_
    exact (tidyTop.div tidyBelow).bind fun fraction tidyFraction => tidyResult.add tidyFraction

theorem partfrac (tidy : Tidy e) {given : Option String} (named : ∀ x ∈ given, Identifier x) :
    Reliable (e.partfrac given) := by
  refine Alike.guarded (Alike.lift_bind fun _ _ => ?_)
  split
  · exact .pure tidy
  next x found =>
    have identifier := tidy.mainVariable? named found
    refine tidy.together.bind fun parts tidyParts => ?_
    refine (tidyParts.1.poly? x).bind fun n _ => (tidyParts.2.poly? x).bind fun d _ => ?_
    split
    next n d _ _ =>
      split
      · exact .pure tidy
      refine (n.reliable_division d).bind fun result _ => ?_
      refine (result.1.tidies_toExpr identifier).lift.bind fun whole tidyWhole => ?_
      split
      · exact .pure tidyWhole
      refine d.reliable_findFactors.bind fun factors _ => ?_
      refine (Alike.pollSteps _).bind fun _ _ => ?_
      split
      · exact .pure tidy
      · exact (addFractions identifier tidyWhole).lift
    · exact .pure tidy

theorem commonFactor {terms : List Expr} (tidy : ∀ t ∈ terms, Tidy t) : Tidies (Expr.commonFactor terms) := by
  have removed {t : Expr} (tidyT : Tidy t) : ∀ entry ∈ removable t, Tidy entry.2 := by
    intro entry member
    obtain ⟨f, inside, rfl⟩ := List.mem_map.mp member
    exact tidyT.factors f (List.mem_filter.mp inside).1
  have lookup {current : List (String × Expr)} (tidyAll : ∀ entry ∈ current, Tidy entry.2) {key : String}
      {g : Expr} (found : current.lookup key = some g) : Tidy g := by
    obtain ⟨before, after, split, -⟩ := List.lookup_eq_some_iff.mp found
    exact tidyAll (key, g) (split ▸ by simp)
  have shared {first second : List (String × Expr)} (tidyFirst : ∀ entry ∈ first, Tidy entry.2)
      (tidySecond : ∀ entry ∈ second, Tidy entry.2) : ∀ entry ∈ sharedFactors first second, Tidy entry.2 := by
    intro entry member
    obtain ⟨⟨key, f⟩, inside, found⟩ := List.mem_filterMap.mp member
    obtain ⟨g, there, rfl⟩ := Option.map_eq_some_iff.mp found
    dsimp only
    split
    · exact tidyFirst _ inside
    · exact lookup tidySecond there
  have all {ts : List Expr} {start : List (String × Expr)} (tidyTs : ∀ t ∈ ts, Tidy t)
      (tidyStart : ∀ entry ∈ start, Tidy entry.2) :
      ∀ entry ∈ ts.foldl (fun shared t => sharedFactors shared (removable t)) start, Tidy entry.2 := by
    induction ts generalizing start with
    | nil => exact tidyStart
    | cons t ts ih =>
      exact ih (fun u later => tidyTs u (List.mem_cons_of_mem t later))
        (shared tidyStart (removed (tidyTs t List.mem_cons_self)))
  unfold Expr.commonFactor
  split
  · exact .ok (number 1)
  next t ts =>
    refine (number 1).mulAll fun f member => ?_
    obtain ⟨entry, inside, rfl⟩ := List.mem_map.mp member
    exact all (fun u later => tidy u (List.mem_cons_of_mem t later))
      (removed (tidy t List.mem_cons_self)) entry inside

theorem ofPolyFactors (named : Identifier x) (c : Rat) (factors : Poly.Factors) :
    Tidies (Expr.ofPolyFactors x c factors) := by
  refine Tidies.foldlM (number c) fun result tidyResult factor _ => ?_
  refine (factor.1.tidies_toExpr named).bind fun base tidyBase => ?_
  exact (tidyBase.powRat _).bind fun power tidyPower => tidyResult.mul tidyPower

theorem factorUnivariate (tidy : Tidy e) : Reliable e.factorUnivariate := by
  unfold Expr.factorUnivariate
  split
  next x single =>
    have identifier := tidy.freeNames x (single ▸ List.mem_singleton_self x)
    refine (tidy.poly? x).bind fun p? _ => ?_
    split
    · exact .pure tidy
    next p _ =>
      split
      · exact .pure tidy
      refine p.reliable_findFactors.bind fun result _ => ?_
      dsimp only
      split
      · exact .pure tidy
      · exact (ofPolyFactors identifier _ _).lift
  · exact .pure tidy

theorem factorWithin (tidy : Tidy e) (n : ℕ) : Reliable (Expr.factorWithin n e) := by
  induction n generalizing e with
  | zero => exact .throw _
  | succ n ih =>
    unfold Expr.factorWithin
    refine Alike.poll.bind fun _ _ => ?_
    split
    next c factors =>
      refine Alike.foldlM (number c) fun result tidyResult f member => ?_
      exact (ih (tidy.each f member)).bind fun factor tidyFactor => (tidyResult.mul tidyFactor).lift
    next c terms p =>
      split
      · refine (ih tidy.plain).bind fun inner tidyInner => ?_
        exact (tidyInner.powRat p).lift.bind fun power tidyPower => .pure (tidyPower.scale c)
      · refine (commonFactor tidy.spreadTerms).lift.bind fun common tidyCommon => ?_
        split
        · exact tidy.factorUnivariate
        · refine Alike.bind (Alike.foldlM (number 0) fun rest tidyRest t member => ?_)
            fun rest (tidyRest : Tidy rest) => (ih tidyRest).bind fun factor tidyFactor =>
              (tidyCommon.mul tidyFactor).lift
          exact ((tidy.spreadTerms t member).div tidyCommon).lift.bind fun quotient tidyQuotient =>
            (tidyRest.add tidyQuotient).lift
    next =>
      split
      · exact .pure tidy
      · exact .throw _

theorem factorTree (tidy : Tidy e) : Reliable e.factorTree := tidy.factorWithin _

theorem factor (tidy : Tidy e) : Reliable e.factor := tidy.factorTree.guarded

theorem cancel (tidy : Tidy e) : Reliable e.cancel := by
  refine tidy.together.bind fun parts tidyParts => ?_
  obtain ⟨tidyAbove, tidyBelow⟩ := tidyParts
  have quotient := (tidyAbove.div tidyBelow).lift
  dsimp only
  split
  · exact .pure tidyAbove
  split
  next x single =>
    have identifier : Identifier x := by
      refine identifier_of_sortNames (fun name member => ?_) (single ▸ List.mem_singleton_self x)
      exact (List.mem_append.mp member).elim (tidyAbove.freeNames name) (tidyBelow.freeNames name)
    refine (tidyAbove.poly? x).bind fun n? _ => ?_
    refine tidyBelow.expand.bind fun below tidyBelow => (tidyBelow.poly? x).bind fun d? _ => ?_
    split
    next n d _ _ =>
      split
      · exact quotient
      refine (n.reliable_commonDivisor d).bind fun common _ => ?_
      split
      · refine (n.reliable_quotient common).bind fun n _ => (d.reliable_quotient common).bind fun d _ => ?_
        refine (n.tidies_toExpr identifier).lift.bind fun top tidyTop => ?_
        refine (d.tidies_toExpr identifier).lift.bind fun bottom tidyBottom => ?_
        exact tidyBottom.factorTree.bind fun bottom tidyBottom => (tidyTop.div tidyBottom).lift
      · exact quotient
    · exact quotient
  · exact quotient

theorem pythagorean (tidy : Tidy e) : Tidies e.pythagorean := by
  unfold Expr.pythagorean
  dsimp only
  split
  · exact .ok tidy
  split
  · exact .error _
  split
  · exact .ok tidy
  refine Tidies.bind (Tidies.mapM fun square _ => ?_) fun constants (tidyAll : ∀ c ∈ constants, Tidy c) => ?_
  · exact .bind_eq fun value _ => .ok (number value)
  · exact ((number 0).addAll tidyAll).bind fun total tidyTotal =>
      tidyTotal.addAll fun t member => tidy.spreadTerms t (List.mem_filter.mp member).1

theorem simplifyPasses (tidy : Tidy e) (n : ℕ) : Reliable (Expr.simplifyPasses n e) := by
  induction n generalizing e with
  | zero => exact .pure tidy
  | succ n ih =>
    refine Alike.poll.bind fun _ _ => ?_
    refine tidy.expand.bind fun expanded tidyExpanded => ?_
    refine tidy.pythagorean.lift.bind fun reduced tidyReduced => ?_
    refine tidy.cancel.bind fun cancelled tidyCancelled => ?_
    refine Alike.lift_bind fun text _ => ?_
    have each : ∀ c ∈ [expanded, reduced, cancelled], Tidy c := by
      simp only [List.mem_cons, List.not_mem_nil, or_false, forall_eq_or_imp, forall_eq]
      exact ⟨tidyExpanded, tidyReduced, tidyCancelled⟩
    have start : AllTidy (e, text) := ⟨tidy, trivial⟩
    refine Alike.bind (Alike.foldlM start fun best tidyBest c member => ?_)
      fun best (tidyBest : Tidy best.1 ∧ True) => ?_
    · refine Alike.lift_bind fun written _ => .pure ?_
      unfold shorter
      split
      · exact ⟨each c member, trivial⟩
      · exact tidyBest
    · split
      · exact .pure tidy
      · exact ih tidyBest.1

theorem simplify (tidy : Tidy e) : Reliable e.simplify := by
  refine (tidy.canonicalize.bind fun start tidyStart => ?_).guarded
  exact (Alike.count _).bind fun passes _ => tidyStart.simplifyPasses _

end Expr.Tidy

end ExactAlgebra
