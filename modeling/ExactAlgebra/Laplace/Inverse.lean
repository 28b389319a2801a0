import ExactAlgebra.Laplace.Forward

/-! The inverse Laplace transform. Partial fractions are matched one by one against powers of `s`,
powers of linear terms and quadratics; what has no match is left unevaluated. -/
namespace ExactAlgebra
open Engine

namespace Expr

/-- `1 / (p*s + q)^k` comes from `t^(k-1) * e^(-q*t/p) / (p^k * (k-1)!)`. -/
def inverseOfLinearPower (p q : Expr) (t : String) (k : Nat) : Except Fault Expr := do
  let shift ← pow (bare "e") (neg (← div (← mul q (bare t)) p))
  let scale := (← p.powRat k).scale (Elementary.factorialOf (k - 1))
  div (← mul (← (bare t).powRat (k - 1 : Nat)) shift) scale

/-- `(b*s + c) / base^n` for a linear base. -/
def inverseOverLinear (base c b : Expr) (n : Nat) (s t : String) : Engine (Option Expr) := do
  match ← base.linear? s with
  | none => throw .unsupported
  | some (p, q) =>
    let last ← inverseOfLinearPower p q t n
    let result ← mul c last
    if b.isZero then return some result
    else if n = 1 then return none
    else
      let ratio ← div b p
      let result ← add result (← mul ratio (← inverseOfLinearPower p q t (n - 1)))
      return some (← sub result (← mul (← mul ratio q) last))

def powerOverFactorial (t : String) (k : Nat) : Except Fault Expr := do
  div (← (bare t).powRat k) (number (Elementary.factorialOf k))

/-- What `(s+h) / ((s+h)^2 + r)^n` and `1 / ((s+h)^2 + r)^n` come from, up to the shift by `h`. -/
def inverseQuadraticParts (r : Expr) (n : Nat) (t : String) : Engine (Expr × Expr) := do
  let sign : Int := match r with
    | number v => Rational.sign v
    | _ => 1
  if sign = 0 then
    let shifted ← powerOverFactorial t (2 * n - 2)
    return (shifted, ← powerOverFactorial t (2 * n - 1))
  else
    let w ← sqrt (if 0 < sign then r else neg r)
    let wt ← mul w (bare t)
    let (sine, cosine) := if 0 < sign then ("sin", "cos") else ("sinh", "cosh")
    if n = 1 then
      let shifted ← apply cosine wt
      return (shifted, ← div (← apply sine wt) w)
    else
      let shifted ← div (← mul (bare t) (← apply sine wt)) (← mul (number 2) w)
      let inner ← sub (← apply sine wt) (← mul wt (← apply cosine wt))
      let below ← mul (number 2) (← w.powRat 3)
      return (shifted, ← div (inner.scale sign) below)

/-- `(b*s + c) / base^n` for a quadratic base and `n` up to two. -/
def inverseOverQuadratic (base c b : Expr) (n : Nat) (s t : String) : Engine Expr := do
  match ← base.completeSquare? s with
  | none => throw .unsupported
  | some (a, h, k) =>
    let d ← sub c (← mul b h)
    let shift ← pow (bare "e") (neg (← mul h (bare t)))
    let (shifted, plain) ← inverseQuadraticParts (← div k a) n t
    let body ← add (← mul b shifted) (← mul d plain)
    div (← mul shift body) (← a.powRat n)

/-- The inverse of `(b*s + c) / base^order`. -/
def inverseOfFraction (base c b : Expr) (order : Rat) (s t : String) : Engine (Option Expr) := do
  if base.isBare s then
    if !b.isZero || order ≤ 0 || !isHalfInteger order then return none
    else
      let result ← div (← (bare t).powRat (order - 1)) (← gammaValue order)
      return some (← mul c result)
  else if !Rational.isInteger order || order ≤ 0 then return none
  else
    let n := order.num.toNat
    match ← base.coeffs? s with
    | some [_, _] => inverseOverLinear base c b n s t
    | some [_, _, _] =>
      if n ≤ 2 then return some (← inverseOverQuadratic base c b n s t) else return none
    | _ => return none

def inverseOfTerm (term : Expr) (s t : String) : Engine (Option Expr) := do
  let (coefficient, rest) ← term.stripCoefficient s
  let (top, bottom) ← rest.splitFraction
  if (top.contains s && bottom.isOne) || bottom.isProduct then return none
  match ← top.coeffs? s with
  | some (c :: cs) =>
    if 1 < cs.length then return none
    match ← inverseOfFraction bottom.stem c (cs.headD zero) bottom.power s t with
    | some result => return some (← mul coefficient result)
    | none => return none
  | _ => return none

/-- Splits terms into the sum of their inverses and the sum of those without one. -/
def inverseOfTerms (s t : String) : List Expr → Expr → Expr → Engine (Expr × Expr)
  | [], result, unresolved => return (result, unresolved)
  | term :: terms, result, unresolved => do
    poll
    let value ← if term.contains s then inverseOfTerm term s t else pure none
    match value with
    | some value => inverseOfTerms s t terms (← add result value) unresolved
    | none => inverseOfTerms s t terms result (← add unresolved term)

def ilt (e : Expr) (s t : String) : Engine Expr := guarded do
  e.checkOpen
  let pieces ← if e.contains s then e.partfrac (some s) else pure e
  let (result, unresolved) ← inverseOfTerms s t pieces.spreadTerms zero zero
  if unresolved.isZero then return result
  else add result (inert "ilt" [unresolved, bare s, bare t])

end Expr

namespace Value

mutual
def ilt (s t : String) : Value → Engine Value
  | expr e => do return expr (← e.ilt s t)
  | equation _ _ => throw .unsupported
  | list items => guarded do return list (← iltAll s t items)

def iltAll (s t : String) : List Value → Engine (List Value)
  | [] => return []
  | v :: vs => do
    let v ← ilt s t v
    return v :: (← iltAll s t vs)
end

end Value
end ExactAlgebra
