import ExactAlgebra.Algebra.Coefficients
import ExactAlgebra.Poly.Steps

/-! Expressions as polynomials and back. The polynomial algorithms look at the deadline at each
of their steps. -/
namespace ExactAlgebra
open Engine

/-- The polynomial in `x` that an expression is, if its coefficients are numbers. -/
def Expr.poly? (e : Expr) (x : String) : Engine (Option Poly) := do
  match ← e.coeffs? x with
  | none => return none
  | some cs => return (cs.mapM Expr.value?).map Poly.ofList

namespace Poly

/-- Adds the terms of coefficients to an expression, counting powers from `n`. -/
def addTerms (x : String) (n : Nat) (result : Expr) : List Rat → Except Fault Expr
  | [] => .ok result
  | c :: cs => do
    if c = 0 then addTerms x (n + 1) result cs
    else
      let power ← if n = 0 then pure Expr.one else (Expr.bare x).powRat n
      addTerms x (n + 1) (← result.add (power.scale c)) cs

def toExpr (p : Poly) (x : String) : Except Fault Expr := addTerms x 0 .zero p.coefficients

def division (p d : Poly) : Engine (Poly × Poly) := do
  let result ← p.divMod d
  pollSteps fun _ => p.divisionSteps d
  return result

def quotient (p d : Poly) : Engine Poly := do return (← p.division d).1

def commonDivisor (p q : Poly) : Engine Poly := do
  pollSteps fun _ => p.gcdSteps q
  return p.gcd q

/-- No search has as many candidates, so this is no limit. -/
def unlimited : Int := 4 * (divisorBound + 1) * (divisorBound + 1)

/-- The limit on candidates, which is looked at only when there are candidates. -/
def candidateLimit (search : RootSearch) : Engine Int := do
  match search with
  | ⟨_, some _, some _⟩ =>
    let limit ← setting .maxRationalRootCandidates
    if ← limit.isBelow 0 then return -1
    else return (← limit.floor?).getD unlimited
  | _ => return 0

/-- The limit under which rational roots are looked for, after as many looks at the deadline as the
search takes. -/
def searchLimit (p : Poly) : Engine Int := do
  if p.degree < 1 then return 0
  match p.rootSearch? with
  | none => return 0
  | some search =>
    pollSteps fun _ => search.divisorSteps
    let limit ← candidateLimit search
    pollSteps fun _ => search.candidateSteps limit
    return limit

def findRoots (p : Poly) : Engine (List Rat) := do return p.rationalRoots (← p.searchLimit)

def findFactors (p : Poly) : Engine (Rat × Factors) := do
  let limit ← p.primitive.2.searchLimit
  pollSteps fun _ => p.splitSteps limit
  return p.factorization limit

end Poly
end ExactAlgebra
