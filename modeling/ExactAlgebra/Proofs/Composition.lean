import ExactAlgebra.Proofs.Execution
import ExactAlgebra.Proofs.Interruption
import ExactAlgebra.Proofs.RationalFunctions
import Mathlib

/-! Rational functions put for variables. A tree that is rebuilt with other rational functions in the place
of its variables, all at the same time, has the value of the tree where those variables stand for the values
of what is put for them. This is what replacing one variable does, and what calling a function does that is
defined by an expression over its parameters. -/
namespace ExactAlgebra.Expr
open Engine

/-- What names stand for once expressions have been put for some of them. -/
def assignAfter (leaf : String → Option Value) (ρ : String → ℚ) (name : String) : ℚ :=
  match leaf name with
  | some (.expr e) => eval ρ e
  | _ => ρ name

/-- Only rational functions that are defined are put for names. -/
def PutsRational (ρ : String → ℚ) (leaf : String → Option Value) : Prop :=
  ∀ name v, leaf name = some v → ∃ e, v = .expr e ∧ IsRationalFunction e ∧ Defined ρ e

mutual
/-- In the course of rebuilding, terms are to be added or factors to be multiplied that cannot be told
apart, because one of their keys is too long to be written out. -/
inductive Stuck (context : Context) (leaf : String → Option Value) : Expr → Prop
  | sum {c : Rat} {terms : List Expr} {p : Rat} :
    StuckIn context leaf add summands hasTermKey zero terms → Stuck context leaf (sum c terms p)
  | product {c : Rat} {fs : List Expr} :
    StuckIn context leaf mul factors hasBaseKey (number c) fs → Stuck context leaf (product c fs)

/-- The same of a list whose items are rebuilt and joined to what there is. -/
inductive StuckIn (context : Context) (leaf : String → Option Value) :
    (Expr → Expr → Except Fault Expr) → (Expr → List Expr) → (Expr → Bool) → Expr → List Expr → Prop
  | inside {join : Expr → Expr → Except Fault Expr} {parts : Expr → List Expr} {hasKey : Expr → Bool}
    {before e : Expr} {es : List Expr} : Stuck context leaf e →
    StuckIn context leaf join parts hasKey before (e :: es)
  | here {join : Expr → Expr → Except Fault Expr} {parts : Expr → List Expr} {hasKey : Expr → Bool}
    {before e r : Expr} {es : List Expr} : Yields context (rebuild leaf e) r →
    Illegible (join before r) hasKey (parts before ++ parts r) →
    StuckIn context leaf join parts hasKey before (e :: es)
  | later {join : Expr → Expr → Except Fault Expr} {parts : Expr → List Expr} {hasKey : Expr → Bool}
    {before e r next : Expr} {es : List Expr} : Yields context (rebuild leaf e) r →
    join before r = .ok next → StuckIn context leaf join parts hasKey next es →
    StuckIn context leaf join parts hasKey before (e :: es)
end

/-- Rebuilding may be stopped by a power of a number with too many digits, or by a key. -/
def StopsRebuilding (context : Context) (leaf : String → Option Value) (e : Expr) (fault : Fault) : Prop :=
  fault = .powerTooLarge maxIntegerBits ∨ fault = .unsupported ∧ Stuck context leaf e

def StopsJoining (context : Context) (leaf : String → Option Value)
    (join : Expr → Expr → Except Fault Expr) (parts : Expr → List Expr) (hasKey : Expr → Bool)
    (before : Expr) (es : List Expr) (fault : Fault) : Prop :=
  fault = .powerTooLarge maxIntegerBits ∨
    fault = .unsupported ∧ StuckIn context leaf join parts hasKey before es

variable {context : Context} {leaf : String → Option Value} {ρ : String → ℚ} {a e : Expr} {value : ℚ}
  {accepts : Fault → Prop}

theorem meets_powRat (holds : HasValue ρ value a) {p : ℚ} (whole : p.den = 1) (present : p ≠ 0)
    (nonzero : p < 0 → value ≠ 0) (accepted : accepts (.powerTooLarge maxIntegerBits)) :
    Meets context accepts (liftM (a.powRat p)) (HasValue ρ (value ^ p.num)) := by
  have base : p ≤ 0 → eval ρ a ≠ 0 := fun below => holds.value ▸ nonzero (lt_of_le_of_ne below present)
  rcases answers_powRat holds.rational holds.defined whole base with ⟨r, returned, answers⟩ | large
  · refine (Meets.of_ok returned).imp ?_
    rintro _ rfl
    exact ⟨answers.1, answers.2.1, holds.value ▸ answers.2.2⟩
  · apply Meets.lift
    · intro r returned
      cases returned.symm.trans large
    · intro fault failed
      cases failed.symm.trans large
      exact accepted

/-- What joins two expressions computes with their values, where keys can be written out. -/
def Joins (ρ : String → ℚ) (join : Expr → Expr → Except Fault Expr) (parts : Expr → List Expr)
    (hasKey : Expr → Bool) (op : ℚ → ℚ → ℚ) : Prop :=
  ∀ a b, IsRationalFunction a → IsRationalFunction b → Defined ρ a → Defined ρ b →
    Answers (join a b) ρ (op (eval ρ a) (eval ρ b)) ∨ Illegible (join a b) hasKey (parts a ++ parts b)

/-- Items are rebuilt and joined one after another. -/
theorem meets_foldlM_join {join : Expr → Expr → Except Fault Expr} {parts : Expr → List Expr}
    {hasKey : Expr → Bool} {op : ℚ → ℚ → ℚ} (joins : Joins ρ join parts hasKey op) {before : Expr}
    {es : List Expr} {values : Expr → ℚ} (start : HasValue ρ value before)
    (each : ∀ e ∈ es, Meets context (StopsRebuilding context leaf e) (rebuild leaf e) (HasValue ρ (values e))) :
    Meets context (StopsJoining context leaf join parts hasKey before es)
      (es.foldlM (fun before e => do join before (← rebuild leaf e)) before)
      (HasValue ρ ((es.map values).foldl op value)) := by
  induction es generalizing before value with
  | nil => exact Meets.pure start
  | cons e es ih =>
    rw [List.foldlM_cons, List.map_cons, List.foldl_cons]
    have first : Meets context (StopsJoining context leaf join parts hasKey before (e :: es))
        (rebuild leaf e) fun r => HasValue ρ (values e) r ∧ Yields context (rebuild leaf e) r :=
      (each e List.mem_cons_self).with_run.accept fun fault stopped =>
        stopped.1.imp_right fun stuck => ⟨stuck.1, .inside stuck.2⟩
    have joined : Meets context (StopsJoining context leaf join parts hasKey before (e :: es))
        (do join before (← rebuild leaf e)) fun next => HasValue ρ (op value (values e)) next ∧
          ∃ r, Yields context (rebuild leaf e) r ∧ join before r = .ok next := by
      refine Meets.bind _ first fun r ⟨holds, yields⟩ => ?_
      rcases joins before r start.rational holds.rational start.defined holds.defined with
        ⟨next, returned, rational, defined, same⟩ | illegible
      · refine (Meets.of_ok returned).imp ?_
        rintro _ rfl
        rw [start.value, holds.value] at same
        exact ⟨⟨rational, defined, same⟩, r, yields, returned⟩
      · apply Meets.lift
        · intro next returned
          cases returned.symm.trans illegible.1
        · intro fault failed
          cases failed.symm.trans illegible.1
          exact .inr ⟨rfl, .here yields illegible⟩
    refine Meets.bind _ joined fun next ⟨holds, r, yields, returned⟩ => ?_
    refine (ih holds fun e' later => each e' (List.mem_cons_of_mem _ later)).accept ?_
    intro fault stopped
    exact stopped.imp_right fun stuck => ⟨stuck.1, .later yields returned stuck.2⟩

theorem meets_leaf (puts : PutsRational ρ leaf) {name : String} (named : isVariableName name = true)
    (spelled : Identifier name) : Meets context accepts (liftM (leafOf leaf name))
      (HasValue ρ (assignAfter leaf ρ name)) := by
  have plain := (isVariableName_eq named).1
  cases found : leaf name with
  | none =>
    have kept : leafOf leaf name = .ok (bare name) := by simp [leafOf, found, plain]
    refine (Meets.of_ok kept).imp ?_
    rintro _ rfl
    refine ⟨⟨wellFormed_bare spelled plain, .symbol named Scheme.rational.one⟩, .symbol ?_, ?_⟩
    · exact fun negative => absurd negative (by decide)
    · simp [assignAfter, found, bare, eval]
  | some v =>
    obtain ⟨e, rfl, rational, defined⟩ := puts name v found
    have put : leafOf leaf name = .ok e := by
      simp [leafOf, found, Reader.isCopyable_of_wellFormed rational.formed]
    refine (Meets.of_ok put).imp ?_
    rintro _ rfl
    exact ⟨rational, defined, by simp [assignAfter, found]⟩

/-- Rebuilding computes the value of the tree where names stand for what is put for them. -/
theorem meets_rebuild (rational : IsRationalFunction e) (puts : PutsRational ρ leaf)
    (defined : Defined (assignAfter leaf ρ) e) :
    Meets context (StopsRebuilding context leaf e) (rebuild leaf e)
      (HasValue ρ (eval (assignAfter leaf ρ) e)) := by
  induction e using Expr.induction with
  | number c => exact Meets.pure (hasValue_number c)
  | symbol c name p =>
    obtain ⟨formed, built⟩ := rational
    cases built with
    | symbol named whole =>
      cases defined with
      | symbol nonzero =>
        have spelled := formed.2.2.1.resolve_right (by
          rw [(isVariableName_eq named).1]
          exact Bool.false_ne_true)
        rw [rebuild]
        refine Meets.bind _ (meets_leaf puts named spelled) fun base holds => ?_
        refine Meets.bind _ (meets_powRat holds whole formed.2.1 nonzero (.inl rfl)) fun raised powered => ?_
        exact Meets.pure (powered.scale c)
  | call => cases rational.built
  | exponential => cases rational.built
  | foreign => cases rational.built
  | sum c terms p ih =>
    obtain ⟨formed, built⟩ := rational
    cases built with
    | sum each _ whole =>
      cases defined with
      | sum definedEach nonzero =>
        rw [rebuild, rebuildSum_eq]
        have joins : Joins ρ add summands hasTermKey (· + ·) := fun _ _ => answers_add
        have total := meets_foldlM_join joins (hasValue_number 0) fun t member =>
          ih t member ⟨allWellFormed_iff.mp formed.2.2.2 t member, each t member⟩ (definedEach t member)
        have sum : (terms.map fun t => eval (assignAfter leaf ρ) t).foldl (· + ·) 0 =
            evalSum (assignAfter leaf ρ) terms := by
          rw [evalSum_eq, List.sum_eq_foldl]
        rw [sum] at total
        refine Meets.bind _ (total.accept fun fault stopped =>
          stopped.imp_right fun stuck => ⟨stuck.1, .sum stuck.2⟩) fun inner holds => ?_
        refine Meets.bind _ (meets_powRat holds whole formed.2.1 nonzero (.inl rfl)) fun raised powered => ?_
        exact Meets.pure (powered.scale c)
  | product c factors ih =>
    obtain ⟨formed, built⟩ := rational
    cases built with
    | product each =>
      cases defined with
      | product definedEach =>
        rw [rebuild, rebuildProduct_eq]
        have joins : Joins ρ mul Expr.factors hasBaseKey (· * ·) := fun _ _ => answers_mul
        have result := meets_foldlM_join joins (hasValue_number c) fun f member =>
          ih f member ⟨allWellFormed_iff.mp formed.2.2 f member, each f member⟩ (definedEach f member)
        have product : (factors.map fun f => eval (assignAfter leaf ρ) f).foldl (· * ·) c =
            c * evalProduct (assignAfter leaf ρ) factors := by
          rw [evalProduct_eq, List.prod_eq_foldl, ← @List.foldl_assoc ℚ (· * ·), mul_one]
        rw [product] at result
        exact result.accept fun fault stopped => stopped.imp_right fun stuck => ⟨stuck.1, .product stuck.2⟩

end ExactAlgebra.Expr
