import ExactAlgebra.Algebra.PartialFractions
import ExactAlgebra.Calculus.Derivative

/-! Antiderivatives. Sums are integrated term by term; then come the table, linear substitution,
rational functions by partial fractions, products of an exponential with a sine or cosine,
substitution and integration by parts. The rules call a shallower integrator, so each of them can
be read on its own; without a closed form the integral is left unevaluated. -/
namespace ExactAlgebra
open Engine

namespace Expr

/-- What a rule has to say about an integrand. -/
inductive Antiderivative
  | found (e : Expr)
  /-- The rule does not apply, so others may be tried. -/
  | inapplicable
  /-- The rule applies, and there is no closed form on this way. -/
  | stuck

namespace Antiderivative

/-- A rule that applied: found, or stuck without an answer. -/
def ofOption : Option Expr → Antiderivative
  | some e => found e
  | none => stuck

end Antiderivative

/-- Integrates an expression by an unknown at some depth; no answer means no closed form. -/
abbrev Integrator := Expr → String → Int → Engine (Option Expr)

def substitutionName : String := "__u"

/-- The antiderivative of a power of a function by its argument. -/
def antiderivativeRule? (name : String) (p : Rat) : Option (Expr → Engine Expr) :=
  if p = 1 then
    match name with
    | "sin" => some fun u => do return neg (← apply "cos" u)
    | "cos" => some fun u => apply "sin" u
    | "tan" => some fun u => do return neg (← apply "log" (← apply "cos" u))
    | "sinh" => some fun u => apply "cosh" u
    | "cosh" => some fun u => apply "sinh" u
    | "tanh" => some fun u => do apply "log" (← apply "cosh" u)
    | "log" => some fun u => do sub (← mul u (← apply "log" u)) u
    | "asin" => some fun u => do
      let first ← mul u (← apply "asin" u)
      add first (← u.oneMinusSquare (1 / 2))
    | "acos" => some fun u => do
      let first ← mul u (← apply "acos" u)
      sub first (← u.oneMinusSquare (1 / 2))
    | "atan" => some fun u => do
      let first ← mul u (← apply "atan" u)
      sub first ((← apply "log" (← add one (← u.powRat 2))).scale (1 / 2))
    | "abs" => some fun u => do return (← mul u (← apply "abs" u)).scale (1 / 2)
    | _ => none
  else if p = 2 then
    match name with
    | "sin" => some fun u => do
      sub (u.scale (1 / 2)) ((← apply "sin" (u.scale 2)).scale (1 / 4))
    | "cos" => some fun u => do
      add (u.scale (1 / 2)) ((← apply "sin" (u.scale 2)).scale (1 / 4))
    | "tan" => some fun u => do sub (← apply "tan" u) u
    | "sinh" => some fun u => do
      sub ((← apply "sinh" (u.scale 2)).scale (1 / 4)) (u.scale (1 / 2))
    | "cosh" => some fun u => do
      add ((← apply "sinh" (u.scale 2)).scale (1 / 4)) (u.scale (1 / 2))
    | "log" => some fun u => do
      let square ← mul u (← (← apply "log" u).powRat 2)
      let plain ← mul u (← apply "log" u)
      add (← sub square (plain.scale 2)) (u.scale 2)
    | _ => none
  else if p = -2 then
    match name with
    | "cos" => some fun u => apply "tan" u
    | "sin" => some fun u => do
      let cosine ← apply "cos" u
      return neg (← div cosine (← apply "sin" u))
    | "cosh" => some fun u => apply "tanh" u
    | _ => none
  else if p = -1 then
    match name with
    | "cos" => some fun u => do
      let tangent ← apply "tan" u
      apply "log" (← add tangent (← (← apply "cos" u).powRat (-1)))
    | "sin" => some fun u => do apply "log" (← apply "tan" (u.scale (1 / 2)))
    | _ => none
  else none

/-- Functions that integration by parts differentiates first. -/
def isPartsFunction (name : String) : Bool :=
  ["log", "asin", "acos", "atan", "asinh", "acosh", "atanh"].contains name

def integratePower (x : String) (p : Rat) : Engine Expr := do
  if p = -1 then apply "log" (bare x)
  else div (← (bare x).powRat (p + 1)) (number (p + 1))

/-- A base free of `x` to an exponent that is linear in `x`, or `e` to the negative of a square. -/
def integrateExponential (c : Rat) (base exponent : Expr) (x : String) :
    Engine Antiderivative := do
  if base.contains x then return .inapplicable
  let logBase ← if base.isUnitE then pure one else apply "log" base
  match ← exponent.linear? x with
  | some (a, _) => return .found (← div (exponential c base exponent) (← mul a logBase))
  | none =>
    if !logBase.isOne then return .inapplicable
    match ← exponent.completeSquare? x with
    | some (number a, h, k) =>
      if h.isZero && a < 0 then
        let root ← sqrt (number (-a))
        let top ← mul (← sqrt (bare "pi")) (← pow (bare "e") k)
        let scale ← div top (← mul (number 2) root)
        return .found (← mul scale (← apply "erf" (← mul root (bare x))))
      else return .inapplicable
    | _ => return .inapplicable

/-- The reciprocal root of a quadratic with numbers for its leading coefficient and its constant
after completion of the square. -/
def integrateInverseRoot (base : Expr) (x : String) : Engine (Option Expr) := do
  match ← base.completeSquare? x with
  | some (number a, h, number k) =>
    let shifted ← add (bare x) h
    let answer (name : String) (ratio size : Rat) : Engine (Option Expr) := do
      let scale ← sqrt (number ratio)
      let top ← apply name (← mul scale shifted)
      return some (← div top (← sqrt (number size)))
    if a < 0 && 0 < k then answer "asin" (-a / k) (-a)
    else if 0 < a && 0 < k then answer "asinh" (a / k) a
    else if 0 < a && k < 0 then answer "acosh" (a / -k) a
    else return none
  | _ => return none

def integratePowerOfSum (recur : Integrator) (e base : Expr) (p : Rat) (x : String)
    (depth : Int) : Engine Antiderivative := do
  match ← base.linear? x with
  | some (a, _) =>
    if p = -1 then return .found (← div (← apply "log" base) a)
    else
      let power ← base.powRat (p + 1)
      return .found (← div power (← mul a (number (p + 1))))
  | none =>
    let inverse ← if p = -1 / 2 then integrateInverseRoot base x else pure none
    match inverse with
    | some result => return .found result
    | none =>
      if Rational.isInteger p && 1 < p then
        return .ofOption (← recur (← e.expand) x (depth + 1))
      else return .inapplicable

/-- The integrands with a rule of their own: powers, functions of linear arguments, exponentials,
powers of sums. -/
def integrateSimple (recur : Integrator) (e : Expr) (x : String) (depth : Int) :
    Engine Antiderivative := do
  match e with
  | symbol _ name p =>
    if name == x then return .found (← integratePower x p) else return .inapplicable
  | call _ name [u] p =>
    match ← u.linear? x, antiderivativeRule? name p with
    | some (a, _), some rule => return .found (← div (← rule u) a)
    | _, _ => return .inapplicable
  | exponential c base exponent => integrateExponential c base exponent x
  | sum _ terms p => integratePowerOfSum recur e (sum 1 terms 1) p x depth
  | _ => return .inapplicable

/-- The integral of `(b * x + c) / (k₂ * x^2 + k₁ * x + k₀)`. -/
def integrateOverQuadratic (top bottom : Expr) (x : String) : Engine (Option Expr) := do
  let topPoly ← top.poly? x
  let square ← bottom.completeSquare? x
  match topPoly, square with
  | some p, some (number a, number h, number k) =>
    if 1 < p.degree then return none
    let b := p.coeff 1
    let result ←
      if b = 0 then pure zero else do pure ((← apply "log" bottom).scale (b / (2 * a)))
    let remaining := p.coeff 0 - b * h
    if remaining = 0 then return some result
    let shifted ← add (bare x) (number h)
    let ratio := k / a
    let c := number (remaining / a)
    if 0 < ratio then
      let root ← sqrt (number ratio)
      let inner ← mul c (← div (← apply "atan" (← div shifted root)) root)
      return some (← add result inner)
    else if ratio < 0 then
      let root ← sqrt (number (-ratio))
      let quotient ← div (← sub shifted root) (← add shifted root)
      let inner ← mul c (← div (← apply "log" quotient) (← mul (number 2) root))
      return some (← add result inner)
    else return some (← add result ((← inv shifted).scale (-remaining / a)))
  | _, _ => return none

/-- Adds the integrals of partial fractions over denominators of degree at most two. -/
def integrateFractions (recur : Integrator) (x : String) (depth : Int) (total : Expr) :
    List Expr → Engine (Option Expr)
  | [] => return some total
  | term :: terms => do
    let (top, bottom) ← term.splitFraction
    match ← bottom.poly? x with
    | none => return none
    | some p =>
      let part ←
        if p.degree ≤ 1 then recur term x (depth + 1)
        else if p.degree = 2 then integrateOverQuadratic top bottom x
        else pure none
      match part with
      | none => return none
      | some part => integrateFractions recur x depth (← add total part) terms

def integrateRational (recur : Integrator) (e : Expr) (x : String) (depth : Int) :
    Engine Antiderivative := do
  let (numerator, denominator) ← e.together
  if denominator.isOne || !denominator.contains x then return .inapplicable
  match ← numerator.poly? x with
  | none => return .inapplicable
  | some _ =>
    match ← denominator.poly? x with
    | none => return .inapplicable
    | some _ =>
      let pieces ← partfrac (← div numerator denominator) (some x)
      return .ofOption (← integrateFractions recur x depth zero pieces.spreadTerms)

def factorsWith (e : Expr) (x : String) : List Expr := e.factors.filter (·.contains x)

def naturalExponent? : Expr → Option Expr
  | exponential _ base exponent => if base.isE then some exponent else none
  | _ => none

/-- A plain sine or cosine: whether it is a sine, and its argument. -/
def sinusoid? : Expr → Option (Bool × Expr)
  | call _ name (u :: _) p =>
    if p = 1 && (name == "sin" || name == "cos") then some (name == "sin", u) else none
  | _ => none

/-- A power of `e` times a sine or cosine, all with linear arguments. -/
def integrateCyclic (e : Expr) (x : String) : Engine Antiderivative := do
  let factors := e.factorsWith x
  if factors.length ≠ 2 then return .inapplicable
  match factors.find? (·.naturalExponent?.isSome), factors.findSome? sinusoid? with
  | some growth, some (isSine, u) =>
    let exponent := growth.naturalExponent?.getD zero
    match ← exponent.linear? x, ← u.linear? x with
    | some (a, _), some (b, _) =>
      let sine ← apply "sin" u
      let cosine ← apply "cos" u
      let scale ← add (← mul a a) (← mul b b)
      let body ←
        if isSine then do sub (← mul a sine) (← mul b cosine)
        else do add (← mul a cosine) (← mul b sine)
      return .found (← div (← mul growth body) scale)
    | _, _ => return .inapplicable
  | _, _ => return .inapplicable

/-- Inner and outer part of a composite factor, the outer one in terms of `t`. -/
def composite? (factor t : Expr) : Engine (Option (Expr × Expr)) := do
  match factor with
  | call _ name [u] p => return some (u, ← (← apply name t).powRat p)
  | exponential _ base exponent => return some (exponent, ← pow base t)
  | sum _ terms p => if p = 1 then return none else return some (sum 1 terms 1, ← t.powRat p)
  | _ => return none

/-- The integrand as a multiple of the derivative of the inner part of one factor, integrated in
terms of that part. -/
def substituteInner (recur : Integrator) (e : Expr) (x : String) (depth : Int)
    (factor : Expr) : Engine (Option Expr) := do
  poll
  match ← composite? factor (bare substitutionName) with
  | none => return none
  | some (inner, outer) =>
    if (← inner.linear? x).isSome then return none
    let rest ← div e factor
    let slope ← derive x inner
    if slope.isZero then return none
    let ratio ← div rest slope
    let ratio ← if ratio.contains x then ratio.expand else pure ratio
    if ratio.contains x then return none
    match ← recur outer substitutionName (depth + 1) with
    | none => return none
    | some antiderivative =>
      return some (← mul ratio (← substitute antiderivative substitutionName inner))

/-- The integrand as a power of one factor times its derivative. -/
def substituteFactor (e : Expr) (x : String) (factor : Expr) : Engine (Option Expr) := do
  poll
  if !(e.isProduct && (factor.isCall || factor.isSum)) then return none
  let base := factor.stem
  let p := factor.power
  let slope ← derive x base
  if slope.isZero then return none
  let ratio ← div (← div e factor) slope
  if ratio.contains x then return none
  if p = -1 then return some (← mul ratio (← apply "log" base))
  else return some (← mul ratio (← div (← base.powRat (p + 1)) (number (p + 1))))

def firstAnswer (rule : Expr → Engine (Option Expr)) : List Expr → Engine (Option Expr)
  | [] => return none
  | factor :: factors => do
    match ← rule factor with
    | some result => return some result
    | none => firstAnswer rule factors

def integrateBySubstitution (recur : Integrator) (e : Expr) (x : String) (depth : Int) :
    Engine Antiderivative := do
  let candidates := if e.isProduct then e.factors else [e]
  match ← firstAnswer (substituteInner recur e x depth) candidates with
  | some result => return .found result
  | none =>
    match ← firstAnswer (substituteFactor e x) candidates with
    | some result => return .found result
    | none => return .inapplicable

/-- The factor that integration by parts differentiates: an inverse function, else a positive
integer power of the unknown. -/
def partsFactor? (factors : List Expr) : Option Expr :=
  let isInverse (f : Expr) : Bool :=
    f.isCall && f.power == 1 && isPartsFunction (f.name?.getD "")
  let isPower (f : Expr) : Bool := f.isSymbol && Rational.isInteger f.power && decide (0 < f.power)
  (factors.find? isInverse).or (factors.find? isPower)

def integrateByParts (recur : Integrator) (e : Expr) (x : String) (depth : Int) :
    Engine Antiderivative := do
  let factors := e.factorsWith x
  let isSuited := match factors with
    | [] => false
    | [f] => isPartsFunction (f.name?.getD "")
    | _ => true
  match partsFactor? factors with
  | none => return .inapplicable
  | some u =>
    if !isSuited then return .inapplicable
    match ← recur (← div e u) x (depth + 1) with
    | none => return .inapplicable
    | some v =>
      match ← recur (← mul (← derive x u) v) x (depth + 1) with
      | none => return .inapplicable
      | some remainder => return .found (← sub (← mul u v) remainder)

def firstRule : List (Engine Antiderivative) → Engine Antiderivative
  | [] => return .inapplicable
  | rule :: rules => do
    poll
    match ← rule with
    | .inapplicable => firstRule rules
    | outcome => return outcome

def integrateProduct (recur : Integrator) (e : Expr) (x : String) (depth : Int) :
    Engine Antiderivative :=
  firstRule [integrateRational recur e x depth, integrateCyclic e x,
    integrateBySubstitution recur e x depth, integrateByParts recur e x depth]

def integrateTerms (recur : Integrator) (x : String) (depth : Int) (total : Expr) :
    List Expr → Engine (Option Expr)
  | [] => return some total
  | term :: terms => do
    match ← recur term x depth with
    | none => return none
    | some part => integrateTerms recur x depth (← add total part) terms

/-- An integrand without a coefficient: the simple rules, then distribution, then the rules for
products. -/
def integrateRest (recur : Integrator) (e : Expr) (x : String) (depth : Int) :
    Engine (Option Expr) := do
  match ← integrateSimple recur e x depth with
  | .found result => return some result
  | .stuck => return none
  | .inapplicable =>
    let expanded ← e.expand
    if expanded.isPlainSum then recur expanded x (depth + 1)
    else
      match ← integrateProduct recur e x depth with
      | .found result => return some result
      | .stuck => return none
      | .inapplicable =>
        if ← expanded.same e then return none else recur expanded x (depth + 1)

/-- One level of integration. Terms, and what is left without a coefficient, stay at the depth;
everything else is integrated deeper. -/
def integrateStep (level deeper : Integrator) : Integrator := fun e x depth => do
  poll
  if ← (← setting .integrationDepth).isBelow depth then return none
  e.checkOpen
  if !e.contains x then return some (← mul e (bare x))
  if e.isPlainSum then integrateTerms level x depth zero e.spreadTerms
  else
    let (coefficient, rest) ← e.stripCoefficient x
    if coefficient.isOne then integrateRest deeper rest x depth
    else
      match ← level rest x depth with
      | none => return none
      | some result => return some (← mul coefficient result)

def integrateAt (deeper : Integrator) : Nat → Integrator
  | 0 => fun _ _ _ => throw .unsupported
  | n + 1 => integrateStep (integrateAt deeper n) deeper

/-- The integrator for so many depths. At one depth every other level takes a sum apart, so the size
of the integrand bounds the levels. -/
def integrator : Nat → Integrator
  | 0 => fun _ _ _ => throw .unsupported
  | n + 1 => fun e => integrateAt (integrator n) (2 * e.size + 8) e

/-- The depths up to the limit, and the one at which it is found to be passed. A limit that is no
finite number never is; then nesting ends as one without end. -/
def integrationDepths (limit : Datum) : Nat :=
  match limit.floor? with
  | .ok (some depth) => depth.toNat + 2
  | _ => 8000

def antiderivative? (e : Expr) (x : String) : Engine (Option Expr) := do
  integrator (integrationDepths (← setting .integrationDepth)) e x 0

end Expr

namespace Value
open ExactAlgebra.Expr

/-- The unknown of an integral: the given one or the first that occurs, `x` if that has no name. -/
def integrationName (v : Value) (x : Option String) : Except Fault String := do
  let name := (← v.unknown? x).getD "x"
  return if name.isEmpty then "x" else name

/-- The antiderivative in closed form. An equation has none, and it cannot be looked into. -/
def antiderivative? (v : Value) (x : String) : Engine (Option Expr) := do
  match v with
  | expr e => e.antiderivative? x
  | _ =>
    poll
    if ← (← setting .integrationDepth).isBelow 0 then return none else throw .unsupported

mutual
/-- The antiderivative by the given unknown or the first one that occurs, unevaluated when there is
no closed form; of a list item by item. -/
def integrate (x : Option String) : Value → Engine Value
  | list items => guarded do return list (← integrateAll x items)
  | v => guarded do
    let x ← v.integrationName x
    match ← v.antiderivative? x with
    | some result => return expr result
    | none => return expr (inert "integrate" [← v.copyArgument, bare x])

def integrateAll (x : Option String) : List Value → Engine (List Value)
  | [] => return []
  | v :: vs => do
    let v ← integrate x v
    return v :: (← integrateAll x vs)
end

end Value

def Expr.integrate (e : Expr) (x : Option String) : Engine Expr := do
  (← (Value.expr e).integrate x).toExpr

end ExactAlgebra
