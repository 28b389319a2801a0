import ExactAlgebra.Builtin.Call
import ExactAlgebra.Proofs.ElementaryForm
import ExactAlgebra.Proofs.ExactRoots
import ExactAlgebra.Proofs.NormalForm
import Mathlib

/-! Roots on a circle. A polynomial of two terms is solved by a real radius and the sines and cosines of
equal parts of the circle; where the circle meets the rational numbers, the rational root is found. -/
namespace ExactAlgebra
open Engine ExactAlgebra.Expr

/-- In the context calls are resolved by the table of functions, to some depth, and sine and cosine are
the built-in ones. -/
structure KnowsCircle (context : Context) : Prop where
  calls : ∃ depth, context.call = callWithin depth
  sin : context.scope.functions.lookup "sin" = Builtin.functions.lookup "sin"
  cos : context.scope.functions.lookup "cos" = Builtin.functions.lookup "cos"

variable {context : Context}

/-- What a built-in function does with an expression it does when it is called by its name. -/
theorem meets_apply {name : String} {function : Builtin} {most : ℤ} {x r : Expr} {depth : ℕ}
    {accepts : Fault → Prop} (calls : context.call = callWithin (depth + 1))
    (known : context.scope.functions.lookup name = some ⟨name, 1, some most, .builtin function, false⟩)
    (one : 1 ≤ most)
    (runs : Meets ⟨context.scope, callWithin depth⟩ accepts (function.run [.expr x]) (· = .expr r)) :
    Meets context accepts (apply name x) (· = r) := by
  have result : Meets context accepts (call name [.expr x]) (· = .expr r) := by
    intro looks
    have resolved : call name [.expr x] context = callWithin (depth + 1) context.scope name [.expr x] :=
      congrFun (congrFun (congrFun calls context.scope) name) [.expr x]
    rw [resolved]
    have inside : Meets ⟨context.scope, callWithin depth⟩ accepts (callFunction name [.expr x])
        (· = .expr r) := by
      unfold callFunction
      refine Meets.bind (· = ⟨context.scope, callWithin depth⟩) (Meets.read rfl) ?_
      rintro _ rfl
      rw [known]
      refine Meets.bind (fun _ => True) ?_ fun _ _ => runs
      have counted : FunctionSpec.checkArity ⟨name, 1, some most, .builtin function, false⟩ 1 = .ok () := by
        simp [FunctionSpec.checkArity, one]
      exact (Meets.of_ok counted).imp fun _ _ => trivial
    exact inside looks
  unfold apply callExpr
  refine Meets.bind _ result ?_
  rintro _ rfl
  exact Meets.pure rfl

/-- A built-in function of one expression, called by its name. -/
theorem returns_apply {name : String} {function : Builtin} {rule : Expr → Expr} {x : Expr}
    (calls : ∃ depth, context.call = callWithin depth)
    (known : context.scope.functions.lookup name = some ⟨name, 1, some 1, .builtin function, false⟩)
    (ruled : function.onExpr? = some fun x => return rule x) :
    Returns context (apply name x) (· = rule x) := by
  obtain ⟨_ | depth, calls⟩ := calls
  · -- No call is left to be made, so nothing is returned.
    have result : Returns context (call name [.expr x]) fun _ => False := by
      intro looks
      have resolved : call name [.expr x] context = callWithin 0 context.scope name [.expr x] :=
        congrFun (congrFun (congrFun calls context.scope) name) [.expr x]
      rw [resolved]
      trivial
    exact Meets.bind _ result fun _ impossible => impossible.elim
  · refine meets_apply calls known le_rfl ?_
    unfold Builtin.run
    rw [ruled]
    refine Meets.bind (· = x) (Meets.pure rfl) ?_
    rintro _ rfl
    dsimp only
    split
    · exact Meets.bind _ (Meets.anyway _) fun _ _ => Meets.pure rfl
    · exact Meets.pure rfl

theorem KnowsCircle.returns_cos (knows : KnowsCircle context) (x : Expr) :
    Returns context (apply "cos" x) (· = Elementary.cos x) :=
  returns_apply knows.calls knows.cos rfl

theorem KnowsCircle.returns_sin (knows : KnowsCircle context) (x : Expr) :
    Returns context (apply "sin" x) (· = Elementary.sin x) :=
  returns_apply knows.calls knows.sin rfl

namespace Expr

theorem eq_number_of_value? {e : Expr} {c : ℚ} (value : e.value? = some c) : e = number c := by
  cases e with
  | number => rw [Option.some.inj value]
  | _ => cases value

/-- The root of a power is rational. -/
theorem rootOfPositive_pow {s : ℚ} (positive : 0 < s) {n : ℕ} (several : 1 < n) {r : Expr}
    (returned : rootOfPositive (s ^ n) (mkRat 1 n) = .ok r) : r = number s := by
  obtain ⟨inverse, num, den, floor⟩ := mkRat_one_eq several
  -- All of the radicand is drawn out, so a number is left; its value is known.
  obtain ⟨c, rfl⟩ : ∃ c, r = number c := by
    have radicand : (s ^ n).num.natAbs * Nat.pow (s ^ n).den (n - 1) =
        (s.num.natAbs * s.den ^ (n - 1)) ^ n := by
      rw [Rat.num_pow, Rat.den_pow, Int.natAbs_pow, Nat.pow_eq, ← pow_mul, mul_comm n, pow_mul, mul_pow]
    have split : splitPower (Nat.pow ((s ^ n).num.natAbs * Nat.pow (s ^ n).den (n - 1)) 1) n =
        (s.num.natAbs * s.den ^ (n - 1), 1) := by
      rw [radicand]
      change splitPower (((s.num.natAbs * s.den ^ (n - 1)) ^ n) ^ 1) n = _
      rw [pow_one, splitPower_pow _ (by omega)]
    unfold rootOfPositive at returned
    obtain ⟨_, returned⟩ := Outcome.passed returned
    obtain ⟨outer, -, returned⟩ := Outcome.bind_ok returned
    simp only [floor, Int.cast_zero, sub_zero, num, den, Int.natAbs_one, split, if_true] at returned
    cases returned
    exact ⟨_, rfl⟩
  have value := @complexValue_rootOfPositive ⟨fun _ => 0, fun _ _ => 0⟩ _ _ _ (pow_pos positive n) returned
  have nonnegative : (0 : ℝ) ≤ s := by exact_mod_cast positive.le
  rw [inverse, Rat.cast_pow, Rat.cast_inv, Rat.cast_natCast,
    Real.pow_rpow_inv_natCast nonnegative (by omega), complexValue] at value
  have same : c = s := by exact_mod_cast value
  rw [same]

/-- A root of a number is taken as a power of the number. -/
theorem powRat_number_root {v : ℚ} (nonzero : v ≠ 0) {n : ℕ} (several : 1 < n) :
    (number v).powRat (mkRat 1 n) = powNumber v (mkRat 1 n) := by
  obtain ⟨-, num, den, -⟩ := mkRat_one_eq several
  have zero : mkRat 1 n ≠ 0 := by
    intro same
    rw [same, Rat.num_zero] at num
    cases num
  have one : mkRat 1 n ≠ 1 := by
    intro same
    rw [same, Rat.den_one] at den
    omega
  exact powRat_number nonzero zero one

/-- The radius of the circle on which the roots of a power lie. -/
theorem powRat_pow {s : ℚ} (positive : 0 < s) {n : ℕ} (several : 1 < n) {r : Expr}
    (returned : (number (s ^ n)).powRat (mkRat 1 n) = .ok r) : r = number s := by
  obtain ⟨-, -, den, -⟩ := mkRat_one_eq several
  have power : 0 < s ^ n := pow_pos positive n
  rw [powRat_number_root power.ne' several] at returned
  unfold powNumber at returned
  rw [if_neg (by simp [Rational.isInteger, den]; omega), if_neg power.ne'] at returned
  by_cases unit : s ^ n = 1
  · rw [if_pos unit] at returned
    cases returned
    rw [(pow_eq_one_iff_of_nonneg positive.le (by omega)).mp unit]
    rfl
  · rw [if_neg unit, if_pos power] at returned
    exact rootOfPositive_pow positive several returned

end Expr

theorem returns_expand_numbers {x : Except Fault Expr} {c : ℚ} (computed : x = .ok (number c)) :
    Returns context (do (← (liftM x : Engine Expr)).expand) (· = number c) := by
  refine Meets.bind _ (returns_number computed) ?_
  rintro _ rfl
  exact returns_expand_number c

namespace Poly

/-- A root at an angle with a rational cosine and without a sine. -/
theorem returns_circleRoot (knows : KnowsCircle context) {s c : ℚ} {n offset k : ℕ}
    (cosine : (Elementary.cos ((bare "pi").scale (mkRat (2 * k + offset : ℕ) n))).value? = some c)
    (sine : (Elementary.sin ((bare "pi").scale (mkRat (2 * k + offset : ℕ) n))).value? = some 0) :
    Returns context (circleRoot (number s) n offset k) (· = number (s * c)) := by
  unfold circleRoot
  refine Meets.bind _ (Meets.anyway _) fun _ _ => ?_
  refine Meets.bind _ (knows.returns_cos _) ?_
  rintro _ rfl
  refine Meets.bind _ (knows.returns_sin _) ?_
  rintro _ rfl
  rw [eq_number_of_value? cosine, eq_number_of_value? sine]
  refine Meets.bind _ (returns_number (mul_of_isZero (Bool.or_true _))) ?_
  rintro _ rfl
  refine Meets.bind _ (returns_number (add_numbers c 0)) ?_
  rintro _ rfl
  rw [add_zero]
  exact returns_expand_numbers (mul_numbers s c)

theorem returns_circleRoot_wellFormed (knows : KnowsCircle context) {radius : Expr}
    (formed : radius.WellFormed) (n offset k : ℕ) :
    Returns context (circleRoot radius n offset k) WellFormed := by
  have angle : ((bare "pi").scale (mkRat (2 * k + offset : ℕ) n)).WellFormed :=
    (wellFormed_bare (by decide) (by decide)).scale _
  unfold circleRoot
  refine Meets.bind _ (Meets.anyway _) fun _ _ => ?_
  refine Meets.bind _ (knows.returns_cos _) ?_
  rintro _ rfl
  refine Meets.bind _ (knows.returns_sin _) ?_
  rintro _ rfl
  refine Meets.bind WellFormed (Returns.lift fun imaginary multiplied => ?_) fun imaginary formedI => ?_
  · exact mul_wellFormed (wellFormed_bare (by decide) (by decide)) (Elementary.wellFormed_keptByFunctions.sin angle) multiplied
  refine Meets.bind WellFormed (Returns.lift fun unit added => ?_) fun unit formedUnit => ?_
  · exact add_wellFormed (Elementary.wellFormed_keptByFunctions.cos angle) formedI added
  refine Meets.bind WellFormed (Returns.lift fun product multiplied => ?_) fun product formedProduct => ?_
  · exact mul_wellFormed formed formedUnit multiplied
  · exact expand_wellFormed formedProduct

/-- At angle zero the circle meets the positive numbers, at half a turn the negative ones. -/
theorem returns_circleRoot_rational (knows : KnowsCircle context) {r : ℚ} {n offset k : ℕ}
    (angle : mkRat (2 * k + offset : ℕ) n = if 0 ≤ r then 0 else 1) :
    Returns context (circleRoot (number |r|) n offset k) (· = number r) := by
  by_cases right : 0 ≤ r
  · rw [if_pos right] at angle
    have found : Returns context (circleRoot (number |r|) n offset k) (· = number (|r| * 1)) := by
      refine returns_circleRoot knows ?_ ?_
      · rw [angle]
        decide +kernel
      · rw [angle]
        decide +kernel
    have value : |r| * 1 = r := by rw [mul_one, abs_of_nonneg right]
    rwa [value] at found
  · rw [if_neg right] at angle
    have found : Returns context (circleRoot (number |r|) n offset k) (· = number (|r| * -1)) := by
      refine returns_circleRoot knows ?_ ?_
      · rw [angle]
        decide +kernel
      · rw [angle]
        decide +kernel
    have value : |r| * -1 = r := by rw [mul_neg_one, abs_of_neg (not_le.mp right), neg_neg]
    rwa [value] at found

/-- One of the equal parts of the circle ends at the rational root. -/
theorem exists_part {r ratio : ℚ} {n : ℕ} (several : 0 < n) (root : r ^ n = ratio) :
    ∃ k < n, mkRat (2 * k + (if ratio < 0 then 1 else 0) : ℕ) n = if 0 ≤ r then 0 else 1 := by
  have whole (m : ℕ) (same : m = n) : mkRat m n = 1 := by
    rw [same, Rat.mkRat_eq_div]
    have positive : (n : ℚ) ≠ 0 := by exact_mod_cast several.ne'
    push_cast
    exact div_self positive
  by_cases right : 0 ≤ r
  · refine ⟨0, several, ?_⟩
    have positive : ¬ ratio < 0 := by
      rw [← root]
      exact (pow_nonneg right n).not_gt
    simp [positive, right]
  · rw [if_neg right]
    have negative := not_le.mp right
    rcases Nat.even_or_odd n with even | odd
    · have above : ¬ ratio < 0 := by
        rw [← root]
        exact (even.pow_nonneg r).not_gt
      obtain ⟨k, split⟩ := even
      refine ⟨k, by omega, ?_⟩
      rw [if_neg above]
      exact whole _ (by omega)
    · have below : ratio < 0 := by
        rw [← root]
        exact odd.pow_neg negative
      obtain ⟨k, split⟩ := odd
      refine ⟨k, by omega, ?_⟩
      rw [if_pos below]
      exact whole _ (by omega)

open Polynomial in
/-- All roots of a polynomial of two terms are well formed, and the rational ones are among them. -/
theorem returns_twoTermRoots (knows : KnowsCircle context) {p : Poly} (twoTerm : p.isTwoTerm = true) :
    Returns context p.twoTermRoots fun es =>
      (∀ e ∈ es, e.WellFormed) ∧ ∀ r : ℚ, p.toPolynomial.eval r = 0 → number r ∈ es := by
  obtain ⟨high, lead, constant, shape⟩ := eq_of_isTwoTerm twoTerm
  have nonzero : p.toPolynomial ≠ 0 := by
    intro zero
    rw [zero, natDegree_zero] at high
    omega
  have degree : p.degree.toNat = p.toPolynomial.natDegree := by rw [degree_eq nonzero, Int.toNat_natCast]
  unfold twoTermRoots
  dsimp only
  rw [degree]
  set n := p.toPolynomial.natDegree
  set ratio := -p.coeff 0 / p.leading with hratio
  have roots {r : ℚ} (root : p.toPolynomial.eval r = 0) : r ≠ 0 ∧ r ^ n = ratio := by
    rw [shape] at root
    simp only [Polynomial.eval_add, Polynomial.eval_mul, eval_C, eval_pow, eval_X] at root
    constructor
    · rintro rfl
      rw [zero_pow (by omega), mul_zero, zero_add] at root
      exact constant root
    · rw [hratio, eq_div_iff lead]
      linear_combination root
  refine Meets.bind (fun radius => radius.WellFormed ∧
    ∀ r, p.toPolynomial.eval r = 0 → radius = number |r|) (Returns.lift fun radius raised => ?_)
      fun radius ⟨formed, exact⟩ => ?_
  · refine ⟨@powRat_wellFormed (number _) radius _ trivial raised, fun r root => ?_⟩
    obtain ⟨other, power⟩ := roots root
    have size : Rational.abs ratio = |r| ^ n := by
      rw [Rational.abs_eq_abs, ← power, abs_pow]
    rw [size] at raised
    exact powRat_pow (abs_pos.mpr other) (by omega) raised
  -- The rational root at the end of a part of the circle is what that part returns.
  refine Meets.bind _ (@Meets.mapM _ _ _ _ _ _ (fun k e => e.WellFormed ∧ ∀ r : ℚ,
    p.toPolynomial.eval r = 0 →
      mkRat (2 * k + (if ratio < 0 then 1 else 0) : ℕ) n = (if 0 ≤ r then 0 else 1) → e = number r)
    fun k _ => ?_) fun es ⟨parts, all⟩ => Meets.pure ⟨fun e member => ?_, fun r root => ?_⟩
  · refine Returns.of_run fun looks e later run =>
      ⟨(returns_circleRoot_wellFormed knows formed _ _ k).returned run, fun r root angle => ?_⟩
    rw [exact r root] at run
    exact (returns_circleRoot_rational knows angle).returned run
  · rcases List.mem_append.mp member with real | other
    · obtain ⟨k, -, holds⟩ := parts e (List.mem_filter.mp real).1
      exact holds.1
    · obtain ⟨k, -, holds⟩ := parts e (List.mem_filter.mp other).1
      exact holds.1
  · obtain ⟨k, inside, angle⟩ := @exists_part r ratio n (by omega) (roots root).2
    obtain ⟨e, member, holds⟩ := all k (List.mem_range.mpr inside)
    obtain rfl := holds.2 r root angle
    exact List.mem_append_left _ (List.mem_filter.mpr ⟨member, rfl⟩)

end Poly

end ExactAlgebra
