import ExactAlgebra.Proofs.Differentiation
import ExactAlgebra.Proofs.RationalFunctions
import Mathlib

/-! Derivatives of every order. Each differentiation feeds the next, so the expression that is returned for order
`n` stands for the `n`-th derivative. -/
namespace ExactAlgebra.Expr
open Engine Filter Topology

/-- Differentiating so many times leads from the first expression to the second. -/
inductive HigherDerivative (x : String) : ℕ → Expr → Expr → Prop
  | zero (e : Expr) : HigherDerivative x 0 e e
  | succ {n : ℕ} {e d r : Expr} : Derivative x e d → HigherDerivative x n d r → HigherDerivative x (n + 1) e r

/-- Something that arises in one of so many differentiations is too long to be written out. -/
def OverlongWithin (x : String) (n : ℕ) (e : Expr) : Prop :=
  ∃ k < n, ∃ g, HigherDerivative x k e g ∧ Overlong x g

def StopsDifferentiating (context : Context) (x : String) (n : ℕ) (e : Expr) (fault : Fault) : Prop :=
  Interrupted context fault ∨ RefusedFor (OverlongWithin x n e) fault

/-- The expression stands for the derivative of that order wherever no base with a negative power is zero, and no
unevaluated derivative is left in it. -/
structure IsDerivative (x : String) (n : ℕ) (e r : Expr) : Prop where
  evaluated : r.calls "diff" = false
  regular : ∀ ρ, NoPole ρ e → NoPole ρ r
  differentiable : ∀ ρ, NoPole ρ e → ContDiffAt ℝ n (along x ρ e) (ρ x)
  value : ∀ ρ, NoPole ρ e → iteratedDeriv n (along x ρ e) (ρ x) = realValue ρ r

variable {context : Context} {x : String} {d e f r : Expr} {n : ℕ} {ρ : String → ℝ}

theorem anyCalls_eq_false {name : String} {es : List Expr} (each : ∀ e ∈ es, e.calls name = false) :
    anyCalls name es = false := by
  induction es with
  | nil => rfl
  | cons e rest ih =>
    rw [anyCalls, each e List.mem_cons_self, ih fun f later => each f (List.mem_cons_of_mem _ later)]
    rfl

/-- Smooth expressions call nothing but sine and cosine. -/
theorem Smooth.calls_eq_false (smooth : Smooth e) {name : String} (other : name ≠ "sin" ∧ name ≠ "cos") :
    e.calls name = false := by
  induction smooth with
  | number | unknown | powerOfE => rfl
  | @circular c g u p named inner whole ih =>
    have differs : g ≠ name := by
      rintro rfl
      tauto
    rw [calls, beq_false_of_ne differs, Bool.false_or]
    exact anyCalls_eq_false (by simpa using ih)
  | sum each whole ih => exact anyCalls_eq_false ih
  | product each ih => exact anyCalls_eq_false ih
  | exponential inner ih => exact Bool.or_eq_false_iff.mpr ⟨rfl, ih⟩

/-- What stands for the slope is the derivative nearby. -/
theorem Stands.eventuallyEq (smooth : Smooth e) (stands : Stands {ρ | NoPole ρ e} (fun ρ => slope x ρ e) d)
    (regular : NoPole ρ e) : deriv (along x ρ e) =ᶠ[𝓝 (ρ x)] along x ρ d := by
  refine (smooth.eventually_noPole regular).mono fun t near => ?_
  have value := stands.value _ near
  rw [slope, along_update, Function.update_self] at value
  exact value.symm

/-- Differentiating again and again gives the derivatives in turn. -/
theorem meets_deriveTimes (knows : KnowsElementary context) (unknown : isVariableName x = true)
    (formed : e.WellFormed) (smooth : Smooth e) (n : ℕ) :
    Meets context (RefusedFor (OverlongWithin x n e)) (deriveTimes x n e)
      (Stands {ρ | NoPole ρ e} fun ρ => iteratedDeriv n (along x ρ e) (ρ x)) := by
  induction n generalizing e with
  | zero =>
    refine Meets.pure ((Stands.self formed smooth fun _ regular => regular).congr fun ρ _ => ?_)
    rw [iteratedDeriv_zero, along_self]
  | succ n ih =>
    unfold deriveTimes
    split
    next vanishes =>
      obtain rfl := eq_zero_of_isZero vanishes
      refine Meets.pure ((Stands.number _ 0).congr fun ρ _ => ?_)
      have constant : along x ρ zero = fun _ => (0 : ℝ) := by
        rw [zero, along_number, Rat.cast_zero]
      rw [constant, iteratedDeriv_const, if_neg n.succ_ne_zero, Rat.cast_zero]
    next =>
      refine Meets.bind _ ((smooth.differentiates formed knows unknown).within knows le_rfl fun r arises long =>
        ⟨0, n.succ_pos, e, .zero e, r, arises, long⟩) ?_
      rintro d ⟨stands, derived⟩
      have later (overlong : OverlongWithin x n d) : OverlongWithin x (n + 1) e := by
        obtain ⟨k, below, g, higher, long⟩ := overlong
        exact ⟨k + 1, Nat.succ_lt_succ below, g, .succ derived higher, long⟩
      refine ((ih stands.formed stands.smooth).accept (RefusedFor.imp later)).imp fun r reached => ?_
      refine (reached.mono stands.regular).congr fun ρ regular => ?_
      rw [iteratedDeriv_succ', (stands.eventuallyEq smooth regular).iteratedDeriv_eq]

/-- What stands for the derivative of that order. -/
theorem Stands.isDerivative (smooth : Smooth e)
    (stands : Stands {ρ | NoPole ρ e} (fun ρ => iteratedDeriv n (along x ρ e) (ρ x)) r) : IsDerivative x n e r where
  evaluated := stands.smooth.calls_eq_false (by decide)
  regular ρ regular := stands.regular ρ regular
  differentiable ρ regular := (smooth.analyticAt regular).contDiffAt
  value ρ regular := (stands.value ρ regular).symm

theorem IsDerivative.hasDerivAt (smooth : Smooth e) (derivative : IsDerivative x 1 e r) (regular : NoPole ρ e) :
    HasDerivAt (along x ρ e) (realValue ρ r) (ρ x) := by
  have slopes := smooth.hasDerivAt (x := x) regular
  rwa [slope, ← iteratedDeriv_one, derivative.value ρ regular] at slopes

/-- The derivative of a value is that of its expression, computed in blocks of the deadline. -/
theorem meets_diff {accepts : Fault → Prop} {post : Expr → Prop} (knows : KnowsElementary context)
    (formed : e.WellFormed) (interrupted : ∀ fault, Interrupted context fault → accepts fault)
    (times : ∀ inner, KnowsElementary inner → Meets inner accepts (deriveTimes x n e) post) :
    Meets context accepts (Value.diff (some x) (.whole n) (.expr e)) fun v => ∃ r, v = .expr r ∧ post r := by
  have below : (Datum.whole n).isBelow 0 = .ok false := by
    have least : ¬ ((n : ℤ) : ℚ) < 0 := by
      rw [Int.cast_natCast]
      exact n.cast_nonneg.not_gt
    simp only [Datum.isBelow, Datum.compareTo, Datum.integer, compareOfLessAndEq]
    change Except.ok _ = _
    split
    · contradiction
    · split <;> rfl
  unfold Value.diff Value.diffExpr diff
  refine Meets.bind post (meets_guarded interrupted fun guard opens => ?_) fun r holds => Meets.pure ⟨r, rfl, holds⟩
  refine Meets.bind (· = false) (Meets.of_ok below) ?_
  rintro _ rfl
  refine Meets.bind (· = some x) (Meets.of_ok rfl) ?_
  rintro _ rfl
  refine Meets.bind (· = (n : ℤ)) (Meets.of_ok rfl) ?_
  rintro _ rfl
  refine meets_guarded (fun fault stopped => interrupted fault (stopped.of_block opens)) fun deeper _ => ?_
  have inside := times _ ((knows.inBlock guard).inBlock deeper)
  dsimp only
  rw [if_neg (Int.natCast_nonneg n).not_gt]
  split
  · refine Meets.bind (fun _ => True) ?_ fun _ _ => inside
    exact (Meets.of_ok (checkOpen_of_wellFormed formed)).imp fun _ _ => trivial
  · exact inside

/-- Differentiating a smooth expression `n` times returns an expression without an unevaluated derivative. It
stands for the `n`-th derivative at every point where no base with a negative power is zero. Only the deadline
stops it, or something that arises on the way and is too long to be written out. -/
theorem diff_is_derivative (formed : f.WellFormed) (smooth : Smooth f) (unknown : isVariableName x = true)
    (knows : KnowsElementary context) (n : ℕ) :
    Meets context (StopsDifferentiating context x n f) (Value.diff (some x) (.whole n) (.expr f)) fun v =>
      ∃ r, v = .expr r ∧ IsDerivative x n f r ∧
        (n = 1 → ∀ ρ, NoPole ρ f → HasDerivAt (along x ρ f) (realValue ρ r) (ρ x)) := by
  refine meets_diff knows formed (fun _ => .inl) fun inner knows => ?_
  refine ((meets_deriveTimes knows unknown formed smooth n).accept fun _ => .inr).imp fun r stands => ?_
  have derivative := stands.isDerivative smooth
  refine ⟨derivative, ?_⟩
  rintro rfl ρ regular
  exact derivative.hasDerivAt smooth regular

theorem knowsElementary_initial : KnowsElementary ⟨Session.initial.scope, callWithin maxCallDepth⟩ :=
  ⟨⟨199, rfl⟩, fun _ _ => rfl⟩

/-- The second derivative of the sine of a square. -/
theorem sine_of_square_differentiated_twice :
    let e := inert "sin" [symbol 1 "x" 2]
    e.WellFormed ∧ Smooth e ∧ KnowsElementary ⟨Session.initial.scope, callWithin maxCallDepth⟩ ∧
      ∃ r, runIn Session.initial.scope (Value.diff (some "x") (.whole (2 : ℕ)) (.expr e)) = .ok (.expr r) ∧
        r.render = .ok "-4*x^2*sin(x^2)+2*cos(x^2)" ∧ IsDerivative "x" 2 e r := by
  intro e
  have square : (symbol 1 "x" 2).WellFormed :=
    ⟨one_ne_zero, two_ne_zero, .inl (by decide), fun digits => absurd digits (by decide),
      fun same => absurd same (by decide)⟩
  have formed : e.WellFormed := ⟨one_ne_zero, one_ne_zero, by decide, by decide, square, trivial⟩
  have smooth : Smooth e := .circular (.inl rfl) (.unknown (by decide) rfl) rfl
  have written : (runIn Session.initial.scope (Value.diff (some "x") (.whole (2 : ℕ)) (.expr e)) >>=
      Value.render).toOption = some "-4*x^2*sin(x^2)+2*cos(x^2)" := by decide +kernel
  obtain ⟨v, returned, text⟩ := Outcome.bind_ok (Outcome.ok_of_toOption written)
  have knows := knowsElementary_initial
  -- With the session left open, the elaborator does not start to run the computations.
  generalize Session.initial.scope = scope at returned knows ⊢
  obtain ⟨r, rfl, derivative, -⟩ := (diff_is_derivative formed smooth (by decide) knows 2).of_runIn returned
  exact ⟨formed, smooth, knows, r, returned, text, derivative⟩

/-- A call that cannot be written out cannot be multiplied. -/
theorem mul_inert_keyless {name : String} {args : List Expr} (keyless : (inert name args).hasBaseKey = false)
    (some : e.isZero = false) (proper : e.isNumber = false) : mul (inert name args) e = .error .unsupported := by
  have enough := @enough_work (inert name args) e
  obtain ⟨n, limit⟩ : ∃ n, workLimit (inert name args) e = n + 2 := ⟨workLimit (inert name args) e - 2, by omega⟩
  have merged : mergeWithin (n + 1) ((inert name args).factors ++ e.factors) []
      ((inert name args).coeff * e.coeff) = .error .unsupported := mergeWithin_keyless keyless
  rw [mul, limit]
  unfold mulWithin
  rw [if_neg (by rw [some]; exact Bool.false_ne_true)]
  cases e with
  | number => cases proper
  | _ => exact congrArg (· >>= _) merged

/-- The derivative of a square of the unknown. -/
theorem meets_derive_square {accepts : Fault → Prop} (m : ℚ) :
    Meets context accepts (derive x (symbol m x 2)) (· = ((symbol 1 x 1).scale 2).scale m) := by
  have lower : (2 - 1 : ℚ) = 1 := by norm_num
  rw [derive, if_pos (beq_self_eq_true x), lower]
  refine Meets.bind (· = bare x) (Meets.of_ok (powRat_one _)) ?_
  rintro _ rfl
  exact Meets.pure rfl

/-- The sine of a square with a coefficient that is too long to be written out is not differentiated. -/
theorem not_derive_sine_of_square (knows : KnowsElementary context) {m : ℚ} (nonzero : m ≠ 0)
    (long : Rational.isWritable m = false) (unknown : isVariableName x = true)
    (formed : (symbol m x 2).WellFormed) :
    Meets context (· = .unsupported) (derive x (inert "sin" [symbol m x 2])) fun _ => False := by
  have smooth : Smooth (symbol m x 2) := .unknown unknown rfl
  have illegible : (symbol m x 2).isLegible = false := by
    simp [isLegible, face, singleFace, Face.isLegibleTimes, Layout.isWritable, coeff, long]
  have inner : (((symbol 1 x 1).scale 2).scale m).isZero = false ∧
      (((symbol 1 x 1).scale 2).scale m).isNumber = false := by
    simp [scale, nonzero, withCoeff, isZero, isNumber]
  have outer : Expr.mul (Elementary.cos (symbol m x 2)) (((symbol 1 x 1).scale 2).scale m) = .error .unsupported := by
    rcases Elementary.cos_cases smooth with ⟨same, _⟩ | call | call
    · cases same
    · rw [call]
      exact mul_inert_keyless ((hasBaseKey_inert _ _).trans illegible) inner.1 inner.2
    · rw [call]
      exact mul_inert_keyless ((hasBaseKey_inert _ _).trans ((isLegible_neg _).trans illegible)) inner.1 inner.2
  have present : anyContains x [symbol m x 2] = true := by simp [anyContains, contains]
  rw [inert, derive, if_pos present, derivePower, if_pos rfl]
  refine Meets.bind (fun _ => False) ?_ fun _ impossible => impossible.elim
  refine Meets.bind (· = Elementary.cos (symbol m x 2)) (knows.meets_cos formed) ?_
  rintro _ rfl
  refine Meets.bind _ (meets_derive_square m) ?_
  rintro _ rfl
  rw [outer]
  exact Meets.throw rfl

/-- So no derivative of it is returned. -/
theorem not_diff_sine_of_square (knows : KnowsElementary context) {m : ℚ} (nonzero : m ≠ 0)
    (long : Rational.isWritable m = false) (unknown : isVariableName x = true)
    (formed : (symbol m x 2).WellFormed) :
    Returns context (Value.diff (some x) (.whole (1 : ℕ)) (.expr (inert "sin" [symbol m x 2]))) fun _ => False := by
  have call : (inert "sin" [symbol m x 2]).WellFormed :=
    ⟨one_ne_zero, one_ne_zero, by decide, by decide, formed, trivial⟩
  have stopped (inner : Context) (knows : KnowsElementary inner) :
      Returns inner (deriveTimes x 1 (inert "sin" [symbol m x 2])) fun _ => False :=
    Meets.bind _ ((not_derive_sine_of_square knows nonzero long unknown formed).accept fun _ _ => trivial)
      fun _ impossible => impossible.elim
  refine (meets_diff knows call (fun _ _ => trivial) stopped).imp ?_
  rintro v ⟨r, -, impossible⟩
  exact impossible

/-- The sine of a square with a coefficient of too many digits has a derivative everywhere, but none is
returned. -/
theorem sine_of_long_square_not_differentiated :
    ∃ m : ℚ, (inert "sin" [symbol m "x" 2]).WellFormed ∧ Smooth (inert "sin" [symbol m "x" 2]) ∧
      (∀ ρ, NoPole ρ (inert "sin" [symbol m "x" 2])) ∧
      ¬ ∃ v, Yields ⟨Session.initial.scope, callWithin maxCallDepth⟩
        (Value.diff (some "x") (.whole (1 : ℕ)) (.expr (inert "sin" [symbol m "x" 2]))) v := by
  obtain ⟨n, positive, long⟩ := exists_not_isWritable
  have nonzero : (n : ℚ) ≠ 0 := Nat.cast_ne_zero.mpr positive
  have square : (symbol n "x" 2).WellFormed :=
    ⟨nonzero, two_ne_zero, .inl (by decide), fun digits => absurd digits (by decide),
      fun same => absurd same (by decide)⟩
  refine ⟨n, ⟨one_ne_zero, one_ne_zero, by decide, by decide, square, trivial⟩,
    .circular (.inl rfl) (.unknown (by decide) rfl) rfl, fun ρ => ?_, ?_⟩
  · refine .call (fun u member => ?_) fun negative => absurd negative (by decide)
    obtain rfl := List.mem_singleton.mp member
    exact .symbol fun negative => absurd negative (by decide)
  · have knows := knowsElementary_initial
    generalize (⟨Session.initial.scope, callWithin maxCallDepth⟩ : Context) = context at knows ⊢
    rintro ⟨v, yields⟩
    exact (not_diff_sine_of_square knows nonzero long (by decide) square).yielded yields

end ExactAlgebra.Expr
