import ExactAlgebra.Proofs.WellFormed
import Mathlib

/-! Values of expressions. A scheme says of which nodes an expression may be built: numbers, plain
variables, sums and products, with restrictions on the powers and on the coefficients of the terms of
sums. Under an assignment of rational numbers to names such an expression has a rational value. -/
namespace ExactAlgebra

/-- Which powers nodes may have, and which coefficients the terms of sums. Powers are whole, and
those of like factors add up to an admitted one unless they cancel. -/
structure Scheme where
  powers : Rat → Prop
  shares : Rat → Prop
  whole : ∀ p, powers p → p.den = 1
  one : powers 1
  add : ∀ p q, powers p → powers q → p + q ≠ 0 → powers (p + q)

/-- The terms of sums may have any coefficient but zero. -/
def Scheme.AdmitsSums (scheme : Scheme) : Prop := ∀ c, c ≠ 0 → scheme.shares c

/-- Sums and differences of whole numbers are whole. -/
theorem Rational.add_den {p q : Rat} (wholeP : p.den = 1) (wholeQ : q.den = 1) :
    (p + q).den = 1 := by
  rw [← Rat.coe_int_num_of_den_eq_one wholeP, ← Rat.coe_int_num_of_den_eq_one wholeQ,
    ← Int.cast_add, Rat.den_intCast]

/-- Whole powers and any coefficients. -/
def Scheme.rational : Scheme where
  powers p := p.den = 1
  shares _ := True
  whole _ power := power
  one := rfl
  add _ _ wholeP wholeQ _ := Rational.add_den wholeP wholeQ

theorem Scheme.rational_admitsSums : Scheme.rational.AdmitsSums := fun _ _ => trivial

namespace Expr

/-- The expression is built by the scheme out of numbers, plain variables, sums and products. -/
inductive BuiltBy (scheme : Scheme) : Expr → Prop
  | number (c : Rat) : BuiltBy scheme (number c)
  | symbol {c : Rat} {name : String} {p : Rat} : isVariableName name = true → scheme.powers p →
      BuiltBy scheme (symbol c name p)
  | sum {c : Rat} {terms : List Expr} {p : Rat} : (∀ t ∈ terms, BuiltBy scheme t) →
      (∀ t ∈ terms, scheme.shares t.coeff) → scheme.powers p → BuiltBy scheme (sum c terms p)
  | product {c : Rat} {factors : List Expr} : (∀ f ∈ factors, BuiltBy scheme f) →
      BuiltBy scheme (product c factors)

mutual
/-- The value of an expression when names stand for numbers. Calls and exponentials have none. -/
def eval (ρ : String → ℚ) : Expr → ℚ
  | number c => c
  | symbol c name p => c * ρ name ^ p.num
  | sum c terms p => c * evalSum ρ terms ^ p.num
  | product c factors => c * evalProduct ρ factors
  | call .. | exponential .. | foreign _ => 0

def evalSum (ρ : String → ℚ) : List Expr → ℚ
  | [] => 0
  | t :: ts => eval ρ t + evalSum ρ ts

def evalProduct (ρ : String → ℚ) : List Expr → ℚ
  | [] => 1
  | f :: fs => eval ρ f * evalProduct ρ fs
end

/-- No base with a negative power has the value zero. -/
inductive Defined (ρ : String → ℚ) : Expr → Prop
  | number (c : Rat) : Defined ρ (number c)
  | symbol {c : Rat} {name : String} {p : Rat} : (p < 0 → ρ name ≠ 0) →
      Defined ρ (symbol c name p)
  | sum {c : Rat} {terms : List Expr} {p : Rat} : (∀ t ∈ terms, Defined ρ t) →
      (p < 0 → evalSum ρ terms ≠ 0) → Defined ρ (sum c terms p)
  | product {c : Rat} {factors : List Expr} : (∀ f ∈ factors, Defined ρ f) →
      Defined ρ (product c factors)

variable {ρ : String → ℚ} {scheme : Scheme}

theorem evalSum_eq (terms : List Expr) : evalSum ρ terms = (terms.map (eval ρ)).sum := by
  induction terms with
  | nil => rfl
  | cons t rest ih => simp [evalSum, ih]

theorem evalProduct_eq (factors : List Expr) :
    evalProduct ρ factors = (factors.map (eval ρ)).prod := by
  induction factors with
  | nil => rfl
  | cons f rest ih => simp [evalProduct, ih]

theorem eval_withCoeff (e : Expr) (c : Rat) : eval ρ (e.withCoeff c) = c * eval ρ e.unit := by
  cases e <;> simp [withCoeff, unit, eval]

theorem eval_eq_coeff_mul (e : Expr) : eval ρ e = e.coeff * eval ρ e.unit := by
  cases e <;> simp [withCoeff, unit, eval, coeff]

theorem eval_scale (e : Expr) (c : Rat) : eval ρ (e.scale c) = c * eval ρ e := by
  unfold scale
  split
  next zeroed => simp [zeroed, zero, eval]
  next =>
    rw [eval_withCoeff, eval_eq_coeff_mul e]
    ring

theorem eval_neg (e : Expr) : eval ρ e.neg = -eval ρ e := by
  rw [neg, eval_withCoeff, eval_eq_coeff_mul e]
  ring

@[simp] theorem eval_zero : eval ρ zero = 0 := rfl

theorem eval_one : eval ρ one = 1 := rfl

theorem eval_of_isZero {e : Expr} (zero : e.isZero = true) : eval ρ e = 0 := by
  cases e with
  | number c => simpa [isZero, eval] using zero
  | _ => simp [isZero] at zero

namespace BuiltBy

theorem withCoeff {e : Expr} (built : BuiltBy scheme e) (c : Rat) :
    BuiltBy scheme (e.withCoeff c) := by
  cases built with
  | number => exact .number c
  | symbol named power => exact .symbol named power
  | sum terms shares power => exact .sum terms shares power
  | product factors => exact .product factors

theorem unit {e : Expr} (built : BuiltBy scheme e) : BuiltBy scheme e.unit := built.withCoeff 1

theorem neg {e : Expr} (built : BuiltBy scheme e) : BuiltBy scheme e.neg := built.withCoeff _

theorem scale {e : Expr} (built : BuiltBy scheme e) (c : Rat) : BuiltBy scheme (e.scale c) := by
  unfold Expr.scale
  split
  · exact .number 0
  · exact built.withCoeff _

end BuiltBy

namespace Defined

theorem withCoeff {e : Expr} (defined : Defined ρ e) (c : Rat) : Defined ρ (e.withCoeff c) := by
  cases defined with
  | number => exact .number c
  | symbol nonzero => exact .symbol nonzero
  | sum terms nonzero => exact .sum terms nonzero
  | product factors => exact .product factors

theorem scale {e : Expr} (defined : Defined ρ e) (c : Rat) : Defined ρ (e.scale c) := by
  unfold Expr.scale
  split
  · exact .number 0
  · exact defined.withCoeff _

end Defined

end Expr
end ExactAlgebra
