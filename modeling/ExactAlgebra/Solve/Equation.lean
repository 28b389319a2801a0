import ExactAlgebra.Algebra.Fraction
import ExactAlgebra.Calculus.Derivative
import ExactAlgebra.Solve.Isolation
import ExactAlgebra.Solve.Polynomial

/-! Equations in one unknown. The numerator over a common denominator is solved as a polynomial, by
its factors, by isolation, or numerically; roots at which the denominator vanishes are dropped. -/
namespace ExactAlgebra
open Engine

/-- Moves everything to the left side. -/
def Equation.difference (equation : Equation) : Except Fault Expr :=
  equation.left.sub equation.right

namespace Expr

/-- The roots by coefficients: of a polynomial, or of degree one or two with any coefficients. -/
def algebraicRoots? (e : Expr) (x : String) : Engine (Option (List Expr)) := do
  match ← e.poly? x with
  | some p => return some (← p.roots)
  | none =>
    match ← e.coeffs? x with
    | some [b, a] => return some (← linearRoots b a)
    | some [c, b, a] => return some (← quadraticRoots c b a)
    | _ => return none

/-- The slope of a function by a symmetric difference. -/
def symmetricSlope (f : Numeric.RealFunction) (x : Float) : Except Fault Float := do
  let h := 1e-7
  let above ← f (x + h)
  return (above - (← f (x - h))) / (2 * h)

/-- Real roots by a scan of the configured interval, for an expression in one unknown. -/
def scannedRoots (e : Expr) (x : String) : Engine (List Expr) := do
  if !(← settings).chosen .numericFallback || e.freeNames != [x] then return []
  let isInvalid (fault : Fault) : Bool := fault.kind == .validation
  match ← attempt isInvalid (Formula.ofExpr e) with
  | none => return []
  | some formula =>
    let f := formula.function x
    let slope ← attempt isInvalid do Formula.ofExpr (← e.diff (some x) 1)
    let slope := match slope with
      | some formula => formula.function x
      | none => symmetricSlope f
    (← Numeric.findRealRoots f slope).mapM fun root => do
      return number (← Numeric.toRational root)

/-- The roots by isolation, else by a scan. -/
def transcendentalRoots (e : Expr) (x : String) : Engine (List Expr) := do
  match ← isolate x e (.expr zero) with
  | some roots =>
    let roots ← Value.toExprs roots
    roots.forM fun root => root.checkOpen
    return roots.filter (!·.contains x)
  | none => e.scannedRoots x

/-- The roots of an expression that is not taken apart into factors. -/
def rootsOfFactor (x : String) (e : Expr) : Engine (List Expr) := do
  poll
  if !e.contains x then return []
  match ← e.algebraicRoots? x with
  | some roots => return roots
  | none => e.transcendentalRoots x

/-- The factors at whose zeros a product vanishes, without their powers. -/
def vanishingFactors (e : Expr) (x : String) : List Expr :=
  (e.factors.filter fun f => f.contains x && (f.isExponential || 0 < f.power)).map stem

def rootsOf (x : String) (e : Expr) : Engine (List Expr) := do
  poll
  if !e.contains x then return []
  match ← e.algebraicRoots? x with
  | some roots => return roots
  | none =>
    let byFactors ←
      if e.isProduct then do pure (← (e.vanishingFactors x).mapM (rootsOfFactor x)).flatten
      else pure []
    if byFactors.isEmpty then e.transcendentalRoots x else return byFactors

/-- The denominator vanishes at a root, or has no value there. -/
def vanishesAt (denominator : Expr) (x : String) (root : Expr) : Engine Bool := do
  let hasNoValue (fault : Fault) : Bool :=
    fault.kind == .divisionByZero || fault.kind == .undefined
  match ← attempt hasNoValue do (← denominator.substitute x root).expand with
  | some value => return value.isZero
  | none => return true

/-- Expressions with the same text only once. -/
def distinct (es : List Expr) : Except Fault (List Expr) := do
  let named ← es.mapM fun e => do return (← e.render, e)
  return (named.foldl (fun kept (text, e) =>
    if kept.any (·.1 == text) then kept else kept ++ [(text, e)]) []).map (·.2)

/-- The roots of an expression by the given unknown or the first one that occurs. -/
def solve (e : Expr) (x : Option String) : Engine (List Expr) := guarded do
  e.checkOpen
  match x.or e.freeNames.head? with
  | none => return []
  | some x =>
    if !e.contains x then return []
    let (numerator, denominator) ← e.together
    let roots ← rootsOf x numerator
    let roots ←
      if denominator.contains x then
        roots.filterM fun root => do return !(← denominator.vanishesAt x root)
      else pure roots
    distinct roots

end Expr

namespace Value

def toZero : Value → Except Fault Expr
  | expr e => .ok e
  | equation left right => do (Equation.mk (← left.toExpr) (← right.toExpr)).difference
  | list _ => .error .unsupported

/-- The roots of an equation, or of an expression that is to be zero. -/
def solve (v : Value) (x : Option String) : Engine (List Expr) := guarded do
  (← v.toZero).solve x

end Value
end ExactAlgebra
