import ExactAlgebra.Calculus.Integral
import ExactAlgebra.Numeric.Search

/-! Definite integrals, finite sums and products. -/
namespace ExactAlgebra
open Engine

namespace Expr

/-- Puts a value for a symbol; it need be an expression only where the symbol occurs. -/
def substituteValue (e : Expr) (name : String) (value : Value) : Engine Expr :=
  rebuild (fun leaf => if leaf == name then some value else none) e

/-- The difference of an antiderivative at two bounds, unless it has a pole there. -/
def difference? (antiderivative : Expr) (x : String) (low high : Value) :
    Engine (Option Expr) :=
  attempt Fault.isPole do
    let upper ← antiderivative.substituteValue x high
    sub upper (← antiderivative.substituteValue x low)

def quadrature? (f : Expr) (x : String) (low high : Expr) : Engine (Option Expr) :=
  attempt (fun fault => fault.kind == .iterations) do
    let a ← low.toFloat
    let b ← high.toFloat
    let formula ← Formula.ofExpr f
    return number (← Numeric.toRational (← Numeric.quadrature (formula.function x) a b))

inductive SeriesKind
  | sum
  | product

namespace SeriesKind

def name : SeriesKind → String
  | sum => "sum"
  | product => "product"

/-- The value of the empty series. -/
def start : SeriesKind → Expr
  | sum => zero
  | product => one

def combine : SeriesKind → Expr → Expr → Except Fault Expr
  | sum, a, b => add a b
  | product, a, b => mul a b

end SeriesKind

/-- Combines the terms of a series from an index on; what is summed up need be an expression only
when there are terms. -/
def seriesTerms (kind : SeriesKind) (f : Value) (index : String) (result : Expr) :
    Nat → Int → Engine Expr
  | 0, _ => return result
  | n + 1, k => do
    poll
    let term ← (← f.toExpr).substitute index (number k)
    seriesTerms kind f index (← kind.combine result term) n (k + 1)

end Expr

namespace Value
open ExactAlgebra.Expr

/-- The definite integral: by an antiderivative, else by quadrature, else unevaluated. -/
def defint (f low high : Value) (x : Option String) : Engine Expr := guarded do
  let x ← f.integrationName x
  let antiderivative ← (← f.integrate (some x)).toExpr
  let exact ←
    if antiderivative.calls "integrate" then pure none
    else antiderivative.difference? x low high
  match exact with
  | some result => return result
  | none =>
    let a ← low.toExpr
    a.checkOpen
    let b ← high.toExpr
    b.checkOpen
    let f ← f.toExpr
    f.checkOpen
    let unevaluated := inert "defint" [f, a, b, bare x]
    if a.isConstant && b.isConstant && f.freeNames.all (· == x) then
      return (← f.quadrature? x a b).getD unevaluated
    else return unevaluated

def bound? : Value → Option Int
  | expr e => e.integer?
  | _ => none

/-- The sum or product over integer bounds; other bounds leave it unevaluated. Without an index all
terms are alike. -/
def series (kind : SeriesKind) (f : Value) (index : Option String) (low high : Value) :
    Engine Expr := guarded do
  match low.bound?, high.bound? with
  | some m, some n =>
    let limit ← setting .maxSeriesTerms
    if ← limit.isBelow (n - m + 1 : Int) then throw (.seriesTooLong kind.name (← limit.shown))
    seriesTerms kind f (index.getD "") kind.start (n - m + 1).toNat m
  | _, _ =>
    let body ← f.copyArgument
    let first ← low.copyArgument
    let indexSymbol := (index.map bare).getD (foreign true)
    return inert kind.name [body, indexSymbol, first, ← high.copyArgument]

end Value
end ExactAlgebra
