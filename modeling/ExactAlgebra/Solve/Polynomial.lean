import ExactAlgebra.Algebra.Polynomial
import ExactAlgebra.Numeric.Search

/-! Roots of polynomials. Rational roots come first and are divided out; what is left is linear,
quadratic, of two terms, or given to a numeric search for its real roots. -/
namespace ExactAlgebra
open Engine ExactAlgebra.Expr

def linearRoots (b a : Expr) : Except Fault (List Expr) := do return [neg (← div b a)]

def quadraticRoots (c b a : Expr) : Engine (List Expr) := do
  let square ← mul b b
  let discriminant ← (← sub square ((← mul a c).scale 4)).expand
  let below := a.scale 2
  if discriminant.isZero then return [← div (neg b) below]
  else
    let root ← sqrt discriminant
    let first ← div (← add (neg b) root) below
    return [first, ← div (← sub (neg b) root) below]

namespace Poly

/-- Only the constant and the leading coefficient are not zero, and the degree is above two. -/
def isTwoTerm (p : Poly) : Bool :=
  2 < p.degree && p.coeff 0 ≠ 0 &&
    ((p.coefficients.drop 1).dropLast).all (· = 0)

/-- One root of `x^n = ratio` on the circle of the roots. -/
def circleRoot (radius : Expr) (n : Nat) (offset k : Nat) : Engine Expr := do
  poll
  let angle := (bare "pi").scale (mkRat (2 * k + offset : Nat) n)
  let cosine ← apply "cos" angle
  let unit ← Expr.add cosine (← Expr.mul (bare "i") (← apply "sin" angle))
  (← Expr.mul radius unit).expand

/-- All roots of a polynomial of two terms, the real ones first. -/
def twoTermRoots (p : Poly) : Engine (List Expr) := do
  let n := p.degree.toNat
  let ratio := -p.coeff 0 / p.leading
  let radius ← (number (Rational.abs ratio)).powRat (mkRat 1 n)
  let offset := if ratio < 0 then 1 else 0
  let roots ← (List.range n).mapM (circleRoot radius n offset)
  return roots.filter (!·.contains "i") ++ roots.filter (·.contains "i")

def floatValue (cs : List Float) (x : Float) : Float := cs.foldr (fun c value => value * x + c) 0

def floatDerivative (cs : List Float) : List Float :=
  (cs.zipIdx.map fun (c, k) => k.toFloat * c).drop 1

/-- A candidate for a root counts as real when its imaginary part is negligible. -/
def isNearlyReal (z : Numeric.Point) : Bool := z.im.abs ≤ 1e-9 * Numeric.atLeastOne z.re.abs

/-- A candidate that is real, polished by Newton's method, as a rational number. -/
def polishRoot? (cs : List Float) (z : Numeric.Point) : Engine (Option Expr) := do
  poll
  if !isNearlyReal z then return none
  let f := fun x => Except.ok (floatValue cs x)
  let slope := fun x => Except.ok (floatValue (floatDerivative cs) x)
  let x := (← Numeric.newton? f slope z.re).getD z.re
  return some (number (← Numeric.toRational x))

/-- The real ones among the roots that the scope's routine finds, polished. -/
def numericRoots (p : Poly) : Engine (List Expr) := do
  let cs ← p.coefficients.mapM fun c => Binary64.ofRat c
  ((← rootFinder) cs.reverse).filterMapM (polishRoot? cs)

def irrationalRoots (p : Poly) : Engine (List Expr) := do
  match p.coefficients.map number with
  | [] | [_] => return []
  | [b, a] => linearRoots b a
  | [c, b, a] => quadraticRoots c b a
  | _ => if p.isTwoTerm then p.twoTermRoots else p.numericRoots

def divideOutRoot (p : Poly) (root : Rat) : Engine Poly := do
  poll
  let factor := linear root 1
  let fuel := p.coefficients.length
  pollSteps fun _ => divideOutSteps factor fuel p
  return (divideOut factor fuel p).1

/-- The roots of a polynomial: exact ones where possible, real approximations for the rest. -/
def roots (p : Poly) : Engine (List Expr) := do
  if p.isTwoTerm then p.twoTermRoots
  else
    let rational ← p.findRoots
    let rest ← rational.foldlM divideOutRoot p
    return rational.map number ++ (← rest.irrationalRoots)

end Poly
end ExactAlgebra
