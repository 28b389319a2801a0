import ExactAlgebra.Proofs.Collection
import ExactAlgebra.Proofs.Decomposition
import ExactAlgebra.Proofs.SquareFreeParts
import Mathlib

/-! Greatest common divisors and least common multiples. What Euclid's rule comes to is divided by every
common divisor, and the product divided by it divides every common multiple. -/
namespace ExactAlgebra

namespace Poly
open Engine Polynomial

variable {p q : Poly} {context : Context}

/-- The greatest common divisor, scaled to the leading coefficient one. -/
structure IsGreatestDivisor (p q g : Poly) : Prop where
  left : g.toPolynomial ∣ p.toPolynomial
  right : g.toPolynomial ∣ q.toPolynomial
  greatest : ∀ f : ℚ[X], f ∣ p.toPolynomial → f ∣ q.toPolynomial → f ∣ g.toPolynomial
  monic : g.toPolynomial ≠ 0 → g.toPolynomial.Monic
  zero : g.toPolynomial = 0 ↔ p.toPolynomial = 0 ∧ q.toPolynomial = 0

theorem isGreatestDivisor_gcd (p q : Poly) : IsGreatestDivisor p q (gcd p q) := by
  obtain ⟨left, right⟩ := dvd_gcd.mp (dvd_refl (gcd p q).toPolynomial)
  refine ⟨left, right, fun f first second => dvd_gcd.mpr ⟨first, second⟩, ?_, ?_⟩
  · obtain ⟨g, -, same⟩ := exists_euclid p q
    rw [same]
    intro nonzero
    exact monic_toPolynomial ((associated_monic g).ne_zero_iff.mp nonzero)
  · rw [← zero_dvd_iff, dvd_gcd, zero_dvd_iff, zero_dvd_iff]

theorem meets_commonDivisor (p q : Poly) :
    Meets context (Interrupted context) (p.commonDivisor q) (· = gcd p q) :=
  Meets.bind _ (meets_pollSteps _) fun _ _ => Meets.pure rfl

/-- The least common multiple, scaled to the leading coefficient one; that of zero is zero. -/
structure IsLeastMultiple (p q l : Poly) : Prop where
  left : p.toPolynomial ∣ l.toPolynomial
  right : q.toPolynomial ∣ l.toPolynomial
  least : ∀ f : ℚ[X], p.toPolynomial ∣ f → q.toPolynomial ∣ f → l.toPolynomial ∣ f
  monic : p.toPolynomial ≠ 0 → q.toPolynomial ≠ 0 → l.toPolynomial.Monic
  zero : p.toPolynomial = 0 ∨ q.toPolynomial = 0 → l.toPolynomial = 0

theorem isLeastMultiple_zero (none : p.toPolynomial = 0 ∨ q.toPolynomial = 0) : IsLeastMultiple p q zero := by
  constructor
  case left => exact toPolynomial_zero ▸ dvd_zero _
  case right => exact toPolynomial_zero ▸ dvd_zero _
  case least =>
    intro f first second
    rw [toPolynomial_zero]
    rcases none with left | right
    · rwa [left] at first
    · rwa [right] at second
  case monic => exact fun left right => absurd none (not_or_intro left right)
  case zero => exact fun _ => toPolynomial_zero

/-- The product divided by the greatest common divisor is the least common multiple. -/
theorem associated_lcm [DecidableEq ℚ[X]] (nonzero : p.toPolynomial ≠ 0) :
    Associated (quot (mul p q) (gcd p q)).monic.toPolynomial
      (EuclideanDomain.lcm p.toPolynomial q.toPolynomial) := by
  have divisor := isGreatestDivisor_gcd p q
  have proper : (gcd p q).toPolynomial ≠ 0 := ne_zero_of_dvd_ne_zero nonzero divisor.left
  have whole : (quot (mul p q) (gcd p q)).toPolynomial * (gcd p q).toPolynomial =
      EuclideanDomain.lcm p.toPolynomial q.toPolynomial * EuclideanDomain.gcd p.toPolynomial q.toPolynomial := by
    have inside : (gcd p q).toPolynomial ∣ (mul p q).toPolynomial := by
      rw [toPolynomial_mul]
      exact divisor.left.mul_right _
    rw [quot_mul proper inside, toPolynomial_mul, mul_comm (EuclideanDomain.lcm _ _), EuclideanDomain.gcd_mul_lcm]
  have divisors : Associated (gcd p q).toPolynomial (EuclideanDomain.gcd p.toPolynomial q.toPolynomial) :=
    associated_of_dvd_dvd (EuclideanDomain.dvd_gcd divisor.left divisor.right)
      (divisor.greatest _ (EuclideanDomain.gcd_dvd_left _ _) (EuclideanDomain.gcd_dvd_right _ _))
  exact (associated_monic _).trans (Associated.of_mul_right (.of_eq whole) divisors proper)

theorem isLeastMultiple_quot (left : p.toPolynomial ≠ 0) (right : q.toPolynomial ≠ 0) :
    IsLeastMultiple p q (quot (mul p q) (gcd p q)).monic := by
  classical
  have same := @associated_lcm p q _ left
  have nonzero : (quot (mul p q) (gcd p q)).toPolynomial ≠ 0 := by
    rw [← (associated_monic _).ne_zero_iff, same.ne_zero_iff, ne_eq, EuclideanDomain.lcm_eq_zero_iff]
    exact not_or_intro left right
  constructor
  case left => exact (EuclideanDomain.dvd_lcm_left _ _).trans same.symm.dvd
  case right => exact (EuclideanDomain.dvd_lcm_right _ _).trans same.symm.dvd
  case least => exact fun f first second => same.dvd.trans (EuclideanDomain.lcm_dvd first second)
  case monic => exact fun _ _ => monic_toPolynomial nonzero
  case zero => exact fun none => absurd none (not_or_intro left right)

def leastMultiple (p q : Poly) : Poly :=
  if p.isZero || q.isZero then zero else (quot (mul p q) (gcd p q)).monic

theorem isLeastMultiple_leastMultiple (p q : Poly) : IsLeastMultiple p q (leastMultiple p q) := by
  rw [leastMultiple]
  split
  next none =>
    rw [Bool.or_eq_true, isZero_iff, isZero_iff] at none
    exact isLeastMultiple_zero none
  next proper =>
    rw [Bool.or_eq_true, isZero_iff, isZero_iff, not_or] at proper
    exact isLeastMultiple_quot proper.1 proper.2

def IsInteger (p : Poly) : Prop := ∃ m : ℤ, p.toPolynomial = C (m : ℚ)

end Poly

namespace Expr
open Engine ExactAlgebra.Poly

variable {context source : Context} {a b e : Expr} {x : String} {x? : Option String} {p q : Poly}

/-- The unknown of two expressions is the one that is given, or else the only one that occurs. -/
def IsUnknown (a b : Expr) (x? : Option String) (x : String) : Prop :=
  x? = some x ∨ x? = none ∧ sortNames (a.freeNames ++ b.freeNames) = [x]

/-- Polynomials are read off again unless a deadline stops that. -/
theorem meets_polyPair (operation : String) (unknown : IsUnknown a b x? x)
    (first : Yields source (a.poly? x) (some p)) (second : Yields source (b.poly? x) (some q)) :
    Meets context (Interrupted context) (polyPair operation a b x?) (· = (p, q, x)) := by
  have reads {f : Option Poly → Option Poly → Engine (Poly × Poly × String)}
      (answer : f (some p) (some q) = pure (p, q, x)) :
      Meets context (Interrupted context) (a.poly? x >>= fun p? => b.poly? x >>= fun q? => f p? q?)
        (· = (p, q, x)) := by
    refine Meets.bind _ (repeatable_poly? a x first context) ?_
    rintro _ rfl
    refine Meets.bind _ (repeatable_poly? b x second context) ?_
    rintro _ rfl
    rw [answer]
    exact Meets.pure rfl
  unfold polyPair
  refine Meets.bind _ (Meets.of_ok (checkOpen_of_poly? first)) fun _ _ => ?_
  refine Meets.bind _ (Meets.of_ok (checkOpen_of_poly? second)) fun _ _ => ?_
  rcases unknown with rfl | ⟨rfl, only⟩
  · exact reads rfl
  · rw [only]
    exact reads rfl

/-- The polynomial of an integer is that constant. -/
theorem isInteger_of_integer? {m : ℤ} (integer : e.integer? = some m) (read : Yields source (e.poly? x) (some p)) :
    p.IsInteger := by
  cases e with
  | number c =>
    have whole : Rational.isInteger c = true := by
      by_contra other
      rw [integer?, if_neg other] at integer
      cases integer
    have denotes := (@returns_poly? x (number c) source ⟨trivial, .number c⟩).yielded read p rfl
    refine ⟨c.num, inUnknown_injective x ?_⟩
    rw [inUnknown, ← denotes, inUnknown, Polynomial.aeval_C, denote, MvPolynomial.algebraMap_eq,
      Rat.coe_int_num_of_den_eq_one (of_decide_eq_true whole)]
  | _ => cases integer

/-- The expression is the polynomial written out, and stands for it if the unknown has a proper name. -/
structure IsWritten (x : String) (p : Poly) (r : Expr) : Prop where
  written : p.toExpr x = .ok r
  represents : Identifier x → isVariableName x = true → Represents (inUnknown x p.toPolynomial) r

/-- The polynomial cannot be written out; with a proper name that is because of its degree. -/
structure IsUnwritten (x : String) (p : Poly) (fault : Fault) : Prop where
  refused : p.toExpr x = .error fault
  long : Identifier x → isVariableName x = true →
    fault = .unsupported ∧ Rational.digitBound ≤ p.toPolynomial.natDegree

theorem meets_toExpr (p : Poly) (x : String) :
    Meets context (IsUnwritten x p) (liftM (p.toExpr x) : Engine Expr) (IsWritten x p) := by
  refine Meets.lift (fun r written => ⟨written, fun named unknown => ?_⟩)
    fun fault refused => ⟨refused, fun named unknown => ?_⟩
  · rcases toExpr_outcome named unknown p with ⟨_, other, represents⟩ | ⟨other, -⟩
    · cases other.symm.trans written
      exact represents
    · cases other.symm.trans written
  · rcases toExpr_outcome named unknown p with ⟨_, other, -⟩ | ⟨other, long⟩
    · cases other.symm.trans refused
    · cases other.symm.trans refused
      exact ⟨rfl, long⟩

/-- Once the operands are read off, their least common multiple is written out. -/
theorem meets_polyLcm (unknown : IsUnknown a b x? x) (first : Yields source (a.poly? x) (some p))
    (second : Yields source (b.poly? x) (some q)) (proper : ¬ (p.IsInteger ∧ q.IsInteger)) :
    Meets context (fun fault => Interrupted context fault ∨ IsUnwritten x (leastMultiple p q) fault)
      (a.polyLcm b x?) (IsWritten x (leastMultiple p q)) := by
  refine meets_guarded (fun _ => .inl) fun guard opens => ?_
  have stops (fault : Fault) (stopped : Interrupted (block context guard) fault) :
      Interrupted context fault ∨ IsUnwritten x (leastMultiple p q) fault := .inl (stopped.of_block opens)
  split
  next m n left right =>
    exact absurd ⟨isInteger_of_integer? left first, isInteger_of_integer? right second⟩ proper
  next =>
    refine Meets.bind _ ((meets_polyPair "lcm" unknown first second).accept stops) ?_
    rintro _ rfl
    dsimp only
    rw [leastMultiple] at stops ⊢
    split
    next none =>
      refine Meets.pure ⟨rfl, fun _ _ => ?_⟩
      rw [toPolynomial_zero, inUnknown, map_zero]
      exact represents_zero
    next some =>
      rw [if_neg some] at stops
      rw [Bool.or_eq_true, isZero_iff, isZero_iff, not_or] at some
      have divisor := ne_zero_of_dvd_ne_zero some.1 (isGreatestDivisor_gcd p q).left
      refine Meets.bind _ ((meets_commonDivisor p q).accept stops) ?_
      rintro _ rfl
      refine Meets.bind _ ((meets_division divisor).accept stops) ?_
      rintro _ rfl
      exact (meets_toExpr _ x).accept fun _ => .inr

/-- The greatest common divisor of all polynomials and the least common multiple of all expressions that are
polynomials, but for integers. Euclid's rule comes to its end with the one; the other is written out in the
unknown unless a deadline or the length of its degree stops that. -/
theorem commonDivisor_greatest_and_polyLcm_least :
    (∀ p q : Poly, (∃ g, Euclid p q g ∧ gcd p q = g.monic) ∧ IsGreatestDivisor p q (gcd p q) ∧
      ∀ context : Context, Meets context (Interrupted context) (p.commonDivisor q) (· = gcd p q)) ∧
    ∀ (context source : Context) (a b : Expr) (x? : Option String) (x : String) (p q : Poly),
      IsUnknown a b x? x → Yields source (a.poly? x) (some p) → Yields source (b.poly? x) (some q) →
      ¬ (p.IsInteger ∧ q.IsInteger) →
      ∃ l, IsLeastMultiple p q l ∧
        Meets context (fun fault => Interrupted context fault ∨ IsUnwritten x l fault) (a.polyLcm b x?)
          (IsWritten x l) := by
  constructor
  · intro p q
    exact ⟨exists_euclid p q, isGreatestDivisor_gcd p q, fun context => meets_commonDivisor p q⟩
  · intro context source a b x? x p q unknown first second proper
    exact ⟨leastMultiple p q, isLeastMultiple_leastMultiple p q, meets_polyLcm unknown first second proper⟩

/-- The polynomials `x^2-1` and `(x+1)^2` in `x`. -/
theorem polyLcm_of_difference_and_square :
    ∃ l r, IsLeastMultiple (ofList [-1, 0, 1]) (ofList [1, 2, 1]) l ∧
      Yields ⟨Session.initial.scope, callWithin maxCallDepth⟩
        ((sum 1 [symbol 1 "x" 2, number (-1)] 1).polyLcm (sum 1 [bare "x", number 1] 2) (some "x")) r ∧
      Represents (inUnknown "x" l.toPolynomial) r := by
  set context : Context := ⟨Session.initial.scope, callWithin maxCallDepth⟩
  set a := sum 1 [symbol 1 "x" 2, number (-1)] 1
  set b := sum 1 [bare "x", number 1] 2
  have unknown : IsUnknown a b (some "x") "x" := .inl rfl
  have reads {e : Expr} {cs : List ℚ}
      (answer : ((e.poly? "x" context).run.run 0).1.toOption.map (·.map Poly.coefficients) = some (some cs)) :
      Yields context (e.poly? "x") (some (ofList cs)) := by
    obtain ⟨p?, found, same⟩ := Option.map_eq_some_iff.mp answer
    obtain ⟨later, run⟩ := exists_run found
    exact ⟨0, later, eq_ofList same ▸ run⟩
  have first : Yields context (a.poly? "x") (some (ofList [-1, 0, 1])) := reads (by decide +kernel)
  have second : Yields context (b.poly? "x") (some (ofList [1, 2, 1])) := reads (by decide +kernel)
  obtain ⟨r, found⟩ := Option.isSome_iff_exists.mp
    (show ((a.polyLcm b (some "x") context).run.run 0).1.toOption.isSome = true by decide +kernel)
  have proper : ¬ (IsInteger (ofList [-1, 0, 1]) ∧ IsInteger (ofList [1, 2, 1])) := by
    rintro ⟨⟨m, constant⟩, -⟩
    have lead : (ofList [-1, 0, 1]).toPolynomial.coeff 2 = 1 := (coeff_toPolynomial _ 2).trans (by decide +kernel)
    rw [constant, Polynomial.coeff_C_of_ne_zero two_ne_zero] at lead
    exact zero_ne_one lead
  clear_value context a b
  obtain ⟨l, least, meets⟩ :=
    commonDivisor_greatest_and_polyLcm_least.2 context context a b (some "x") "x" _ _ unknown first second proper
  obtain ⟨later, run⟩ := exists_run found
  exact ⟨l, r, least, ⟨0, later, run⟩, (meets.returned run).represents (by decide) (by decide)⟩

end Expr
end ExactAlgebra
