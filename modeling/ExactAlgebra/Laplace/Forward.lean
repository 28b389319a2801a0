import ExactAlgebra.Builtin.Elementary
import ExactAlgebra.Calculus.Integral

/-! The Laplace transform by rules: powers, exponentials, sines and cosines of linear arguments,
shifts for products with an exponential, derivatives for products with a power, and at last the
integral against `e^(-s*t)`. A part without a closed form is left unevaluated. -/
namespace ExactAlgebra
open Engine

namespace Expr

/-- The gamma function at `n + 1/2`, divided by the square root of `pi`. -/
def gammaAtHalf : Nat → Rat
  | 0 => 1
  | n + 1 => (n + 1 / 2 : Rat) * gammaAtHalf n

/-- Twice the number is an integer. -/
def isHalfInteger (p : Rat) : Bool := Rational.isInteger (p * 2)

def gammaValue (p : Rat) : Except Fault Expr :=
  if Rational.isInteger p then .ok (number (Elementary.factorialOf (p.num.toNat - 1)))
  else do return (← sqrt (bare "pi")).scale (gammaAtHalf p.floor.toNat)

abbrev Transformer := Expr → String → String → Engine Expr

/-- The transform of a sine or cosine, circular or hyperbolic, of `a * t + b`. -/
def laplaceKernel? (name : String) : Option (Expr → Expr → Expr → Engine Expr) :=
  match name with
  | "sin" => some fun a b s => do
    let top ← add (← mul a (← apply "cos" b)) (← mul s (← apply "sin" b))
    div top (← add (← s.powRat 2) (← a.powRat 2))
  | "cos" => some fun a b s => do
    let top ← sub (← mul s (← apply "cos" b)) (← mul a (← apply "sin" b))
    div top (← add (← s.powRat 2) (← a.powRat 2))
  | "sinh" => some fun a b s => do
    let top ← add (← mul a (← apply "cosh" b)) (← mul s (← apply "sinh" b))
    div top (← sub (← s.powRat 2) (← a.powRat 2))
  | "cosh" => some fun a b s => do
    let top ← add (← mul s (← apply "cosh" b)) (← mul a (← apply "sinh" b))
    div top (← sub (← s.powRat 2) (← a.powRat 2))
  | _ => none

def squareInDouble? (name : String) : Option (Expr → Engine Expr) :=
  match name with
  | "sin" => some fun u => do return (← sub one (← apply "cos" (u.scale 2))).scale (1 / 2)
  | "cos" => some fun u => do return (← add one (← apply "cos" (u.scale 2))).scale (1 / 2)
  | "sinh" => some fun u => do return (← sub (← apply "cosh" (u.scale 2)) one).scale (1 / 2)
  | "cosh" => some fun u => do return (← add (← apply "cosh" (u.scale 2)) one).scale (1 / 2)
  | _ => none

/-- `t^p` goes to `gamma(p + 1) / s^(p + 1)`. -/
def laplaceOfPower (p : Rat) (s : String) : Engine (Option Expr) := do
  if p ≤ -1 || !isHalfInteger p then return none
  let top ← gammaValue (p + 1)
  return some (← div top (← (bare s).powRat (p + 1)))

/-- `c^(a*t + b)` goes to `c^b / (s - a*log(c))`. -/
def laplaceOfExponential (base exponent : Expr) (t s : String) : Engine (Option Expr) := do
  if base.contains t then return none
  match ← exponent.linear? t with
  | none => return none
  | some (a, b) =>
    let rate ← if base.isUnitE then pure a else do mul a (← apply "log" base)
    let top ← pow base b
    return some (← div top (← sub (bare s) rate))

/-- A function, or its square, of a linear argument. -/
def laplaceOfCall (recur : Transformer) (name : String) (u : Expr) (p : Rat) (t s : String) :
    Engine (Option Expr) := do
  match ← u.linear? t with
  | none => return none
  | some (a, b) =>
    match squareInDouble? name, laplaceKernel? name with
    | some inDouble, some kernel =>
      if p = 2 then return some (← recur (← inDouble u) t s)
      else if p = 1 then return some (← kernel a b (bare s))
      else return none
    | _, _ => return none

/-- A product with a power of `e`: the rest, shifted. -/
def laplaceShift (recur : Transformer) (e : Expr) (t s : String) (growth a b : Expr) :
    Engine (Option Expr) := do
  let shifted ← recur (← div e growth) t s
  if shifted.calls "laplace" then return none
  let moved ← shifted.substitute s (← sub (bare s) a)
  return some (← mul (← pow (bare "e") b) moved)

/-- A product with a power of `t`: the rest, differentiated. -/
def laplaceDerivative (recur : Transformer) (e : Expr) (t s : String) (factor : Expr) (n : Nat) :
    Engine (Option Expr) := do
  let transformed ← recur (← div e factor) t s
  if transformed.calls "laplace" then return none
  let sign : Rat := if n % 2 = 0 then 1 else -1
  return some ((← transformed.diff (some s) n).scale sign)

/-- The first factor that is a power of `e` with a linear exponent. -/
def growthFactor? (t : String) : List Expr → Engine (Option (Expr × Expr × Expr))
  | [] => return none
  | factor :: factors => do
    match factor.naturalExponent? with
    | none => growthFactor? t factors
    | some exponent =>
      match ← exponent.linear? t with
      | some (a, b) => return some (factor, a, b)
      | none => growthFactor? t factors

def laplaceOfProduct (recur : Transformer) (e : Expr) (t s : String) : Engine (Option Expr) := do
  match ← growthFactor? t e.factors with
  | some (growth, a, b) => laplaceShift recur e t s growth a b
  | none =>
    match e.factors.findSome? fun f => (f.naturalPower? t).map fun n => (f, n) with
    | some (factor, n) => laplaceDerivative recur e t s factor n
    | none => return none

def laplaceByRule (recur : Transformer) (e : Expr) (t s : String) : Engine (Option Expr) := do
  match e with
  | number _ => return none
  | symbol _ _ p => laplaceOfPower p s
  | call _ name [u] p => laplaceOfCall recur name u p t s
  | call .. => return none
  | exponential _ base exponent => laplaceOfExponential base exponent t s
  | sum .. =>
    let expanded ← e.expand
    if expanded.isPlainSum then return some (← recur expanded t s) else return none
  | product .. => laplaceOfProduct recur e t s
  | foreign _ => throw .unsupported

/-- A power of `e` whose exponent holds both unknowns. -/
def isDecay (t s : String) (f : Expr) : Bool :=
  match f.naturalExponent? with
  | some exponent => exponent.contains s && exponent.contains t
  | none => false

/-- Every term in `t` has a factor that vanishes as `t` grows. -/
def decays (e : Expr) (t s : String) : Engine Bool := do
  return (← e.expand).spreadTerms.all fun term =>
    !term.contains t || term.factors.any (isDecay t s)

/-- The integral of `e^(-s*t)` times the expression from zero on. -/
def laplaceByIntegration (e : Expr) (t s : String) : Engine (Option Expr) := do
  let shallow ← setting .integrationDepth
  let deep ← setting .laplaceIntegrationDepth
  let depth := if ← deep.exceeds shallow then deep else shallow
  let kernel ← pow (bare "e") (neg (← mul (bare s) (bare t)))
  let weighted ← mul kernel e
  let antiderivative ← withSetting .integrationDepth depth
    (weighted.integrate (some t))
  if antiderivative.calls "integrate" then return none
  if !(← antiderivative.decays t s) then return none
  return (← attempt Fault.isUndefined (antiderivative.substitute t zero)).map neg

def laplaceTerms (recur : Transformer) (t s : String) (terms : List Expr) : Engine Expr :=
  terms.foldlM (fun total term => do add total (← recur term t s)) zero

def laplaceStep (recur : Transformer) : Transformer := fun e t s => do
  poll
  e.checkOpen
  if !e.contains t then div e (bare s)
  else if e.isPlainSum then laplaceTerms recur t s e.spreadTerms
  else
    let (coefficient, rest) ← e.stripCoefficient t
    let result ←
      match ← laplaceByRule recur rest t s with
      | some result => pure (some result)
      | none => laplaceByIntegration rest t s
    mul coefficient (result.getD (inert "laplace" [rest, bare t, bare s]))

def laplaceWithin : Nat → Transformer
  | 0 => fun _ _ _ => throw .unsupported
  | n + 1 => laplaceStep (laplaceWithin n)

/-- The Laplace transform from `t` to `s`. Every level takes a term, a factor, a square or a power
of a sum apart, so there are fewer levels than nodes. -/
def laplace (e : Expr) (t s : String) : Engine Expr :=
  guarded (laplaceWithin (8 * e.size + 64) e t s)

end Expr

namespace Value

mutual
def laplace (t s : String) : Value → Engine Value
  | expr e => do return expr (← e.laplace t s)
  | equation _ _ => guarded do
    poll
    throw .unsupported
  | list items => guarded do return list (← laplaceAll t s items)

def laplaceAll (t s : String) : List Value → Engine (List Value)
  | [] => return []
  | v :: vs => do
    let v ← laplace t s v
    return v :: (← laplaceAll t s vs)
end

end Value
end ExactAlgebra
