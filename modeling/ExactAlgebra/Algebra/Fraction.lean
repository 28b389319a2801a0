import ExactAlgebra.Algebra.Polynomial
import ExactAlgebra.Table

/-! Fractions: numerator and denominator of a term, common denominators, and the operations on
pairs of polynomials. -/
namespace ExactAlgebra
open Engine

namespace Expr

def isBelow (f : Expr) : Bool := !f.isExponential && f.power < 0

/-- Numerator and denominator of a term; negative powers go to the denominator. -/
def splitFraction (e : Expr) : Except Fault (Expr × Expr) :=
  match e with
  | product c factors => do
    let numerator ← mulAll (number c) (factors.filter (!·.isBelow))
    let below ← (factors.filter (·.isBelow)).mapM fun f => f.powRat (-1)
    return (numerator, ← mulAll one below)
  | e =>
    if e.isBelow then do return (number e.coeff, ← e.unit.powRat (-1))
    else .ok (e, one)

/-- Keeps the highest power of each base. -/
def raiseCommon (common : List (String × Expr)) (f : Expr) : List (String × Expr) :=
  let key := f.baseKey
  match common.lookup key with
  | some current => if current.power < f.power then Table.insert key f common else common
  | none => Table.insert key f common

/-- Numerator and denominator of an expression over a common denominator. -/
def together (e : Expr) : Engine (Expr × Expr) := do
  let expanded ← e.expand
  let parts ← expanded.spreadTerms.mapM fun t => t.splitFraction
  let below := parts.flatMap fun (_, d) => d.factors
  if below.any (!·.hasBaseKey) then throw .unsupported
  let common := below.foldl raiseCommon []
  let denominator ← mulAll one (common.map (·.2))
  let numerator ← parts.foldlM (fun total (n, d) => do
    poll
    let scaled ← mul n (← div denominator d)
    add total (← scaled.expand)) zero
  return (numerator, denominator)

/-- The given unknown, or else the only one that occurs. -/
def mainVariable? (e : Expr) (x : Option String) : Option String :=
  match x, e.freeNames with
  | some x, _ => some x
  | none, [x] => some x
  | none, _ => none

def polyPair (operation : String) (a b : Expr) (x : Option String) :
    Engine (Poly × Poly × String) := do
  a.checkOpen
  b.checkOpen
  let x := x.or (match sortNames (a.freeNames ++ b.freeNames) with
    | [x] => some x
    | _ => none)
  match x with
  | none => throw (.notPolynomialPair operation none)
  | some x =>
    let p ← a.poly? x
    let q ← b.poly? x
    match p, q with
    | some p, some q => return (p, q, x)
    | _, _ => throw (.notPolynomialPair operation (some x))

def polyDivide (a b : Expr) (x : Option String) : Engine (Expr × Expr) := do
  let (p, q, x) ← polyPair "poly_divide" a b x
  let (quotient, remainder) ← p.division q
  return (← quotient.toExpr x, ← remainder.toExpr x)

def polyGcd (a b : Expr) (x : Option String) : Engine Expr := guarded do
  match a.integer?, b.integer? with
  | some m, some n => return number (Nat.gcd m.natAbs n.natAbs)
  | _, _ =>
    let (p, q, x) ← polyPair "gcd" a b x
    (← p.commonDivisor q).toExpr x

def polyLcm (a b : Expr) (x : Option String) : Engine Expr := guarded do
  match a.integer?, b.integer? with
  | some m, some n => return number (Nat.lcm m.natAbs n.natAbs)
  | _, _ =>
    let (p, q, x) ← polyPair "lcm" a b x
    if p.isZero || q.isZero then return zero
    else
      let (multiple, _) ← (p.mul q).division (← p.commonDivisor q)
      multiple.monic.toExpr x

def squareCompletion (e : Expr) (x : Option String) : Engine Expr := guarded do
  e.checkOpen
  match e.mainVariable? x with
  | none => throw (.notQuadratic (← e.render))
  | some x =>
    match ← e.completeSquare? x with
    | none => throw (.notQuadratic (← e.render))
    | some (a, h, k) =>
      let square ← powRat (← add (bare x) h) 2
      add (← mul a square) k

end Expr
end ExactAlgebra
