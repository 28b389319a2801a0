import ExactAlgebra.Proofs.MultiplicationValue
import ExactAlgebra.Proofs.RealValue
import Mathlib

/-! Slopes. As a function of one unknown a smooth expression is analytic wherever no base with a negative power
is zero, and its slope there follows the rules of calculus, shape by shape. -/
namespace ExactAlgebra.Expr
open Filter Topology

/-- The expression as a function of one unknown, the others standing for given numbers. -/
noncomputable def along (x : String) (ρ : String → ℝ) (e : Expr) (t : ℝ) : ℝ :=
  realValue (Function.update ρ x t) e

noncomputable def slope (x : String) (ρ : String → ℝ) (e : Expr) : ℝ := deriv (along x ρ e) (ρ x)

variable {ρ : String → ℝ} {x : String} {e f u : Expr}

theorem along_self (x : String) (ρ : String → ℝ) (e : Expr) : along x ρ e (ρ x) = realValue ρ e := by
  rw [along, Function.update_eq_self]

/-- Moving the unknown first does not change the function. -/
theorem along_update (x : String) (ρ : String → ℝ) (e : Expr) (t : ℝ) :
    along x (Function.update ρ x t) e = along x ρ e := by
  funext s
  rw [along, Function.update_idem, along]

theorem along_number (c : ℚ) : along x ρ (number c) = fun _ => (c : ℝ) := rfl

theorem along_unknown {name : String} (named : isVariableName name = true) (c p : ℚ) :
    along x ρ (symbol c name p) = fun t => c * Function.update ρ x t name ^ p.num := by
  funext t
  rw [along, realValue, if_neg (isVariableName_ne_e named)]

theorem along_powerOfE (c p : ℚ) : along x ρ (symbol c "e" p) = fun _ => c * Real.exp p := by
  funext t
  rw [along, realValue, if_pos rfl]

theorem along_call (c : ℚ) (name : String) (args : List Expr) (p : ℚ) :
    along x ρ (call c name args p) = fun t => c * along x ρ (inert name args) t ^ p.num := by
  funext t
  simp only [along, inert, realValue, Rat.cast_one, Rat.num_one, zpow_one, one_mul]

theorem along_circular (name : String) (u : Expr) :
    along x ρ (inert name [u]) = fun t => circular name [along x ρ u t] := by
  funext t
  simp only [along, inert, realValue, realValues, Rat.cast_one, Rat.num_one, zpow_one, one_mul]

theorem along_sum (c : ℚ) (terms : List Expr) (p : ℚ) :
    along x ρ (sum c terms p) = fun t => c * along x ρ (sum 1 terms 1) t ^ p.num := by
  funext t
  simp only [along, realValue, Rat.cast_one, Rat.num_one, zpow_one, one_mul]

theorem along_sum_one (terms : List Expr) :
    along x ρ (sum 1 terms 1) = fun t => (terms.map fun e => along x ρ e t).sum := by
  funext t
  rw [along, realValue_sum_one]
  rfl

theorem along_product (c : ℚ) (factors : List Expr) :
    along x ρ (product c factors) = fun t => c * (factors.map fun e => along x ρ e t).prod := by
  funext t
  rw [along, realValue, realValues_eq]
  rfl

theorem along_exponential (c : ℚ) (u : Expr) :
    along x ρ (exponential c (bare "e") u) = fun t => c * Real.exp (along x ρ u t) := by
  funext t
  rw [along, realValue_exponential, along]

theorem analyticAt_zpow {g : ℝ → ℝ} {t : ℝ} (analytic : AnalyticAt ℝ g t) {p : ℚ}
    (nonzero : p < 0 → g t ≠ 0) (c : ℝ) : AnalyticAt ℝ (fun s => c * g s ^ p.num) t := by
  refine analyticAt_const.mul ?_
  by_cases negative : p < 0
  · exact analytic.zpow (nonzero negative)
  · exact analytic.zpow_nonneg (Rat.num_nonneg.mpr (not_lt.mp negative))

theorem analyticAt_listSum {es : List Expr} {g : Expr → ℝ → ℝ} {t : ℝ}
    (each : ∀ e ∈ es, AnalyticAt ℝ (g e) t) : AnalyticAt ℝ (fun s => (es.map fun e => g e s).sum) t := by
  induction es with
  | nil => exact analyticAt_const
  | cons e rest ih =>
    simp only [List.map_cons, List.sum_cons]
    exact (each e List.mem_cons_self).fun_add (ih fun f later => each f (List.mem_cons_of_mem _ later))

theorem analyticAt_listProd {es : List Expr} {g : Expr → ℝ → ℝ} {t : ℝ}
    (each : ∀ e ∈ es, AnalyticAt ℝ (g e) t) : AnalyticAt ℝ (fun s => (es.map fun e => g e s).prod) t := by
  induction es with
  | nil => exact analyticAt_const
  | cons e rest ih =>
    simp only [List.map_cons, List.prod_cons]
    exact (each e List.mem_cons_self).fun_mul (ih fun f later => each f (List.mem_cons_of_mem _ later))

theorem analyticAt_circular {name : String} (named : name = "sin" ∨ name = "cos") {g : ℝ → ℝ} {t : ℝ}
    (analytic : AnalyticAt ℝ g t) : AnalyticAt ℝ (fun s => circular name [g s]) t := by
  rcases named with rfl | rfl
  · exact Real.analyticAt_sin.comp analytic
  · exact Real.analyticAt_cos.comp analytic

/-- The value of the base of a call with a negative power. -/
theorem along_ne_zero (nonzero : realValue ρ e ≠ 0) : along x ρ e (ρ x) ≠ 0 := by
  rwa [along_self]

/-- A smooth expression is an analytic function where no base with a negative power is zero. -/
theorem Smooth.analyticAt (smooth : Smooth e) (regular : NoPole ρ e) :
    AnalyticAt ℝ (along x ρ e) (ρ x) := by
  induction smooth with
  | number => exact analyticAt_const
  | @unknown c name p named =>
    cases regular with
    | symbol nonzero =>
      have base : along x ρ (bare name) = fun t => Function.update ρ x t name := by
        rw [bare, along_unknown named]
        simp
      have nonzero' (negative : p < 0) := @along_ne_zero ρ x _ (nonzero negative)
      rw [base] at nonzero'
      rw [along_unknown named]
      refine analyticAt_zpow ?_ nonzero' _
      by_cases same : name = x
      · subst same
        simp only [Function.update_self]
        exact analyticAt_id
      · simpa [Function.update_of_ne same] using analyticAt_const
  | powerOfE =>
    rw [along_powerOfE]
    exact analyticAt_const
  | circular named inner whole ih =>
    cases regular with
    | call each nonzero =>
      rw [along_call]
      refine analyticAt_zpow ?_ (fun negative => along_ne_zero (nonzero negative)) _
      rw [along_circular]
      exact analyticAt_circular named (ih (each _ (List.mem_singleton_self _)))
  | @sum c terms p each whole ih =>
    cases regular with
    | sum eachRegular nonzero =>
      rw [along_sum]
      refine analyticAt_zpow ?_ (fun negative => along_ne_zero (nonzero negative)) _
      rw [along_sum_one]
      exact analyticAt_listSum fun t member => ih t member (eachRegular t member)
  | @product c factors each ih =>
    cases regular with
    | product eachRegular =>
      rw [along_product]
      refine analyticAt_const.mul ?_
      exact analyticAt_listProd fun f member => ih f member (eachRegular f member)
  | exponential inner ih =>
    cases regular with
    | exponential _ exponent =>
      rw [along_exponential]
      exact analyticAt_const.mul (ih exponent).rexp'

theorem Smooth.hasDerivAt (smooth : Smooth e) (regular : NoPole ρ e) :
    HasDerivAt (along x ρ e) (slope x ρ e) (ρ x) :=
  (smooth.analyticAt regular).differentiableAt.hasDerivAt

/-- Bases that are not zero stay so nearby. -/
theorem Smooth.eventually_ne_zero (smooth : Smooth e) (regular : NoPole ρ e) {p : ℚ}
    (nonzero : p < 0 → realValue ρ e ≠ 0) :
    ∀ᶠ t in 𝓝 (ρ x), p < 0 → realValue (Function.update ρ x t) e ≠ 0 := by
  by_cases negative : p < 0
  · have near := (smooth.analyticAt regular).continuousAt.eventually_ne (along_ne_zero (x := x) (nonzero negative))
    exact near.mono fun t nonzero _ => nonzero
  · exact .of_forall fun t below => absurd below negative

theorem eventually_all {es : List Expr} {holds : Expr → ℝ → Prop} {t : ℝ}
    (each : ∀ e ∈ es, ∀ᶠ s in 𝓝 t, holds e s) : ∀ᶠ s in 𝓝 t, ∀ e ∈ es, holds e s := by
  induction es with
  | nil => simp
  | cons e rest ih =>
    have others := ih fun f later => each f (List.mem_cons_of_mem _ later)
    simpa using (each e List.mem_cons_self).and others

/-- Where no base with a negative power is zero, none is nearby. -/
theorem Smooth.eventually_noPole (smooth : Smooth e) (regular : NoPole ρ e) :
    ∀ᶠ t in 𝓝 (ρ x), NoPole (Function.update ρ x t) e := by
  induction smooth with
  | number c => exact .of_forall fun _ => .number c
  | unknown named whole =>
    cases regular with
    | symbol nonzero =>
      have near := (Smooth.unknown named rfl).eventually_ne_zero (x := x) (.symbol (fun negative =>
        absurd negative (by decide))) nonzero
      exact near.mono fun t nonzero => .symbol nonzero
  | powerOfE c p =>
    refine .of_forall fun t => .symbol fun _ => ?_
    rw [realValue_bare_e]
    exact Real.exp_ne_zero 1
  | @circular c name u p named inner whole ih =>
    cases regular with
    | call each nonzero =>
      have base : NoPole ρ (inert name [u]) := .call each fun negative => absurd negative (by decide)
      have near := (Smooth.circular (c := 1) named inner rfl).eventually_ne_zero (x := x) base nonzero
      have inside := ih (each u (List.mem_singleton_self u))
      exact (near.and inside).mono fun t both => .call (by simpa using both.2) both.1
  | @sum c terms p each whole ih =>
    cases regular with
    | sum eachRegular nonzero =>
      have base : NoPole ρ (Expr.sum 1 terms 1) := .sum eachRegular fun negative => absurd negative (by decide)
      have near := (Smooth.sum (c := 1) each rfl).eventually_ne_zero (x := x) base nonzero
      have inside := eventually_all fun t member => ih t member (eachRegular t member)
      exact (near.and inside).mono fun t both => .sum both.2 both.1
  | @product c factors each ih =>
    cases regular with
    | product eachRegular =>
      have inside := eventually_all fun f member => ih f member (eachRegular f member)
      exact inside.mono fun t all => .product all
  | exponential inner ih =>
    cases regular with
    | exponential _ exponent =>
      refine (ih exponent).mono fun t above => .exponential (.symbol fun negative => ?_) above
      exact absurd negative (by decide)

theorem slope_eq {s : ℝ} (derives : HasDerivAt (along x ρ e) s (ρ x)) : slope x ρ e = s := derives.deriv

/-- What does not contain the unknown does not depend on it. -/
theorem along_of_not_contains (absent : e.contains x = false) (t : ℝ) : along x ρ e t = realValue ρ e := by
  unfold along
  induction e using Expr.induction with
  | number => rfl
  | symbol c name p =>
    have other : name ≠ x := by simpa [contains] using absent
    rw [realValue, realValue, Function.update_of_ne other]
  | call c name args p ih =>
    have each := anyContains_eq_false.mp absent
    have same := List.map_congr_left fun a member => ih a member (each a member)
    rw [realValue, realValue, realValues_eq, realValues_eq, same]
  | sum c terms p ih =>
    have each := anyContains_eq_false.mp absent
    have same := List.map_congr_left fun a member => ih a member (each a member)
    rw [realValue, realValue, realValues_eq, realValues_eq, same]
  | product c factors ih =>
    have each := anyContains_eq_false.mp absent
    have same := List.map_congr_left fun a member => ih a member (each a member)
    rw [realValue, realValue, realValues_eq, realValues_eq, same]
  | exponential c base exponent ihBase ihExponent =>
    obtain ⟨below, above⟩ := Bool.or_eq_false_iff.mp absent
    rw [realValue, realValue, ihBase below, ihExponent above]
  | foreign => rfl

theorem slope_of_not_contains (absent : e.contains x = false) : slope x ρ e = 0 := by
  have constant : along x ρ e = fun _ => realValue ρ e := funext (along_of_not_contains absent)
  rw [slope, constant, deriv_const]

/-- The rule of powers. -/
theorem hasDerivAt_wholePower {g : ℝ → ℝ} {g' t : ℝ} (derives : HasDerivAt g g' t) {p : ℚ} (whole : p.den = 1)
    (nonzero : p < 0 → g t ≠ 0) (c : ℝ) :
    HasDerivAt (fun s => c * g s ^ p.num) (c * (p * g t ^ (p - 1).num * g')) t := by
  have exponent : (p - 1).num = p.num - 1 := by
    have := add_num whole (by rfl : (-1 : ℚ).den = 1)
    rwa [← sub_eq_add_neg] at this
  have cast : (p.num : ℝ) = (p : ℝ) := by
    rw [← Rat.cast_intCast, Rat.coe_int_num_of_den_eq_one whole]
  have outer := hasDerivAt_zpow p.num (g t) (by
    by_cases negative : p < 0
    · exact .inl (nonzero negative)
    · exact .inr (Rat.num_nonneg.mpr (not_lt.mp negative)))
  rw [exponent, ← cast]
  exact (outer.comp t derives).const_mul c

/-- The rule of products: each factor in turn is replaced by its slope. -/
theorem hasDerivAt_listProd {es : List Expr} {g : Expr → ℝ → ℝ} {g' : Expr → ℝ} {t : ℝ}
    (each : ∀ e ∈ es, HasDerivAt (g e) (g' e) t) :
    HasDerivAt (fun s => (es.map fun e => g e s).prod)
      (es.zipIdx.map fun (e, i) => g' e * ((es.eraseIdx i).map fun f => g f t).prod).sum t := by
  induction es with
  | nil => exact hasDerivAt_const _ _
  | cons e rest ih =>
    have later := (each e List.mem_cons_self).fun_mul (ih fun f inside => each f (List.mem_cons_of_mem _ inside))
    simp only [List.map_cons, List.prod_cons]
    refine later.congr_deriv ?_
    rw [List.zipIdx_cons, List.zipIdx_succ, List.map_cons, List.sum_cons, List.map_map, ← List.sum_map_mul_left]
    refine congrArg (g' e * (rest.map fun f => g f t).prod + ·) (congrArg List.sum (List.map_congr_left ?_))
    rintro ⟨f, i⟩ -
    simp only [Function.comp_apply, List.eraseIdx_cons_succ, List.map_cons, List.prod_cons]
    ring

theorem hasDerivAt_listSum {es : List Expr} {g : Expr → ℝ → ℝ} {g' : Expr → ℝ} {t : ℝ}
    (each : ∀ e ∈ es, HasDerivAt (g e) (g' e) t) :
    HasDerivAt (fun s => (es.map fun e => g e s).sum) (es.map g').sum t := by
  induction es with
  | nil => exact hasDerivAt_const _ _
  | cons e rest ih =>
    simp only [List.map_cons, List.sum_cons]
    exact (each e List.mem_cons_self).fun_add (ih fun f inside => each f (List.mem_cons_of_mem _ inside))

theorem slope_unknown (named : isVariableName x = true) {c p : ℚ} (whole : p.den = 1)
    (regular : NoPole ρ (symbol c x p)) : slope x ρ (symbol c x p) = c * (p * ρ x ^ (p - 1).num) := by
  cases regular with
  | symbol nonzero =>
    have base : realValue ρ (bare x) = ρ x := by simp [bare, realValue, isVariableName_ne_e named]
    have derives := hasDerivAt_wholePower (hasDerivAt_id (ρ x)) whole (fun negative => base ▸ nonzero negative) c
    refine slope_eq ?_
    rw [along_unknown named]
    simpa only [Function.update_self, id_eq, mul_one] using derives

theorem slope_call {c p : ℚ} {name : String} (smooth : Smooth (call c name [u] p))
    (regular : NoPole ρ (call c name [u] p)) :
    slope x ρ (call c name [u] p) =
      c * (p * realValue ρ (inert name [u]) ^ (p - 1).num * slope x ρ (inert name [u])) := by
  cases smooth with
  | circular named inner whole =>
    cases regular with
    | call each nonzero =>
      have base : NoPole ρ (inert name [u]) := .call each fun negative => absurd negative (by decide)
      have derives := (Smooth.circular (c := 1) named inner rfl).hasDerivAt (x := x) base
      refine slope_eq ?_
      rw [along_call, ← along_self x ρ]
      exact hasDerivAt_wholePower derives whole (fun negative => along_ne_zero (nonzero negative)) c

/-- The chain rule for sine and cosine. -/
theorem slope_circular (smooth : Smooth u) (regular : NoPole ρ u) :
    slope x ρ (inert "sin" [u]) = Real.cos (realValue ρ u) * slope x ρ u ∧
      slope x ρ (inert "cos" [u]) = -Real.sin (realValue ρ u) * slope x ρ u := by
  have inner := smooth.hasDerivAt (x := x) regular
  rw [← along_self x ρ u]
  constructor
  · refine slope_eq ?_
    rw [along_circular]
    exact inner.sin
  · refine slope_eq ?_
    rw [along_circular]
    exact inner.cos

theorem slope_sum {c p : ℚ} {terms : List Expr} (smooth : Smooth (sum c terms p))
    (regular : NoPole ρ (sum c terms p)) :
    slope x ρ (sum c terms p) =
      c * (p * realValue ρ (sum 1 terms 1) ^ (p - 1).num * (terms.map (slope x ρ)).sum) := by
  cases smooth with
  | sum each whole =>
    cases regular with
    | sum eachRegular nonzero =>
      have derives : HasDerivAt (along x ρ (sum 1 terms 1)) (terms.map (slope x ρ)).sum (ρ x) := by
        rw [along_sum_one]
        exact hasDerivAt_listSum fun t member => (each t member).hasDerivAt (eachRegular t member)
      refine slope_eq ?_
      rw [along_sum, ← along_self x ρ]
      exact hasDerivAt_wholePower derives whole (fun negative => along_ne_zero (nonzero negative)) c

theorem slope_product {c : ℚ} {factors : List Expr} (smooth : Smooth (product c factors))
    (regular : NoPole ρ (product c factors)) :
    slope x ρ (product c factors) =
      c * (factors.zipIdx.map fun (f, i) =>
        slope x ρ f * ((factors.eraseIdx i).map (realValue ρ)).prod).sum := by
  cases regular with
  | product eachRegular =>
    have derives := hasDerivAt_listProd fun f member =>
      (smooth.each f member).hasDerivAt (x := x) (ρ := ρ) (eachRegular f member)
    simp only [along_self] at derives
    refine slope_eq ?_
    rw [along_product]
    exact derives.const_mul _

theorem slope_exponential {c : ℚ} (smooth : Smooth u) (regular : NoPole ρ u) :
    slope x ρ (exponential c (bare "e") u) = realValue ρ (exponential c (bare "e") u) * slope x ρ u := by
  have inner := smooth.hasDerivAt (x := x) regular
  refine slope_eq ?_
  rw [along_exponential, realValue_exponential, ← along_self x ρ u, mul_assoc]
  exact inner.exp.const_mul _

end ExactAlgebra.Expr
