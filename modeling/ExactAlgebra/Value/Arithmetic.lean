import ExactAlgebra.Arithmetic.Product
import ExactAlgebra.Engine.Basic

/-! Arithmetic on values. Operands are taken first; then they are looked at from the left as far as
the result depends on them, and what is looked at has to be an expression. -/
namespace ExactAlgebra.Value
open Engine

def own (v : Value) : Engine Unit := do
  if (← settings).chosen .immutable && !v.isCopyable then throw .unsupported

/-- The sum; zero on the left leaves the right side as it is. -/
def add (a b : Value) : Engine Value := do
  a.own
  b.own
  let a ← a.toExpr
  if a.isZero then return b else return expr (← a.add (← b.toExpr))

def neg (a : Value) : Engine Value := do
  a.own
  return expr (← a.toExpr).neg

def sub (a b : Value) : Engine Value := do
  let b ← b.neg
  a.own
  return expr (← (← a.toExpr).add (← b.toExpr))

/-- The product; zero on the left makes it zero whatever stands on the right. -/
def mul (a b : Value) : Engine Value := do
  a.own
  b.own
  let a ← a.toExpr
  if a.isZero then return expr .zero else return expr (← a.mul (← b.toExpr))

/-- The quotient; the divisor is looked at before anything is taken. -/
def div (a b : Value) : Engine Value := do
  let divisor ← b.toExpr
  if divisor.isZero then throw .divisionByZero
  b.own
  a.own
  return expr (← (← a.toExpr).div divisor)

/-- The power; the first power leaves the base as it is. -/
def pow (a b : Value) : Engine Value := do
  a.own
  b.own
  let exponent ← b.toExpr
  if exponent.isOne then return a else return expr (← (← a.toExpr).pow exponent)

end ExactAlgebra.Value
