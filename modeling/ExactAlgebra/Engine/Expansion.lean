import ExactAlgebra.Engine.Basic
import ExactAlgebra.Arithmetic.Product

/-! Expansion: products are distributed over sums, and positive integer powers of sums are
multiplied out. -/
namespace ExactAlgebra.Expr
open Engine

/-- The product of two expanded expressions, term by term. -/
def distribute (a b : Expr) : Engine Expr := do
  let total ← a.terms.foldlM (fun total x =>
    b.terms.foldlM (fun total y => do
      poll
      add total (← mul x y)) total) zero
  let scaleA := if a.isPlainSum then a.coeff else 1
  let scaleB := if b.isPlainSum then b.coeff else 1
  return total.scale (scaleA * scaleB)

/-- `a` multiplied out with `n` further factors `b`. -/
def distributeTimes (a b : Expr) : Nat → Engine Expr
  | 0 => return a
  | n + 1 => do distributeTimes (← distribute a b) b n

def expandPower (inner : Expr) (p : Rat) : Engine Expr :=
  if p = 1 then return inner
  else if Rational.isInteger p && decide (0 < p) then distributeTimes inner inner (p.num.toNat - 1)
  else inner.powRat p

mutual
/-- The expression with products distributed and whole powers of sums multiplied out. -/
def expandTree : Expr → Engine Expr
  | number c => return number c
  | symbol c name p => return symbol c name p
  | call c name args p => do return call c name (← expandAll args) p
  | exponential c base exponent => do
    let base ← expandTree base
    return (← pow base (← expandTree exponent)).scale c
  | product c factors => do
    let steps := factors.zipWith (fun f step => (f.factorRank f.face, step)) (expansions factors)
    (sortByRank FactorRank.le steps).foldlM (fun result step => do distribute result (← step))
      (number c)
  | sum c terms p => do
    let inner ← expandSum zero terms
    return (← expandPower inner p).scale c
  | foreign _ => throw .unsupported

/-- The expansion of each expression, to be run in any order. -/
def expansions : List Expr → List (Engine Expr)
  | [] => []
  | e :: es => expandTree e :: expansions es

def expandSum (total : Expr) : List Expr → Engine Expr
  | [] => return total
  | t :: ts => do expandSum (← add total (← expandTree t)) ts

def expandAll : List Expr → Engine (List Expr)
  | [] => return []
  | e :: es => do
    let e ← expandTree e
    return e :: (← expandAll es)
end

def expand (e : Expr) : Engine Expr := guarded (expandTree e)

end ExactAlgebra.Expr
