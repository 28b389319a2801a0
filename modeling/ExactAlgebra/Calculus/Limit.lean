import ExactAlgebra.Algebra.Fraction
import ExactAlgebra.Calculus.Derivative

/-! Two-sided limits. At a finite point the expression is put over one line and its numerator and
denominator are differentiated as long as both vanish; at infinity the degrees of a rational
function decide. -/
namespace ExactAlgebra.Expr
open Engine

/-- How often numerator and denominator are differentiated. -/
def maxLimitDepth : Nat := 10

def isInfinity : Expr → Bool
  | symbol c name p => (name == "Infinity" || name == "inf") && p == 1 && c != 0
  | _ => false

def valueAt? (e : Expr) (x : String) (point : Expr) : Engine (Option Expr) :=
  attempt Fault.isUndefined do (← e.substitute x point).expand

/-- The limit of a quotient at a point by so many rounds of differentiation. -/
def limitOfQuotient (e : Expr) (x : String) (point : Expr) :
    Nat → Expr → Expr → Engine (Option Expr)
  | 0, _, _ => return none
  | n + 1, numerator, denominator => do
    poll
    let top ← numerator.valueAt? x point
    let bottom ← denominator.valueAt? x point
    match top, bottom with
    | some top, some bottom =>
      if !bottom.isZero then return some (← div top bottom)
      else if !top.isZero then throw (.limitDoesNotExist (← e.render) x (← point.render))
      else
        let numerator ← numerator.diff (some x) 1
        limitOfQuotient e x point n numerator (← denominator.diff (some x) 1)
    | _, _ => return none

def limitAtInfinity (e : Expr) (x : String) : Engine (Option Expr) := do
  let (numerator, denominator) ← e.together
  let top ← numerator.coeffs? x
  let bottom ← denominator.coeffs? x
  match top, bottom with
  | some top, some bottom =>
    if top.length < bottom.length then return some zero
    else if bottom.length < top.length then throw (.limitUnbounded (← e.render) x)
    else return some (← div (top.getLastD zero) (bottom.getLastD zero))
  | _, _ => return none

def limit (e : Expr) (x : String) (point : Value) : Engine Expr := guarded do
  e.checkOpen
  if !e.contains x then return e
  let point ← point.toExpr
  let result ←
    if point.isInfinity then e.limitAtInfinity x
    else do
      let (numerator, denominator) ← e.together
      limitOfQuotient e x point maxLimitDepth numerator denominator
  match result with
  | some result => return result
  | none => return inert "limit" [e, bare x, ← (Value.expr point).copyArgument]

end ExactAlgebra.Expr
