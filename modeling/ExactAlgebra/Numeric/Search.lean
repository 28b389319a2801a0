import ExactAlgebra.Engine.Basic
import ExactAlgebra.Numeric.Formula
import ExactAlgebra.Rational.Approximation

/-! Searches on real functions: Newton's method, bisection, the scan of an interval for roots, and
adaptive quadrature. All of them look at the deadline and give up after the configured number of
steps. -/
namespace ExactAlgebra.Numeric
open Engine

abbrev RealFunction := Float → Except Fault Float

def measure (name : Setting) : Engine Float := do (← setting name).measure

def atLeastOne (x : Float) : Float := if 1 < x then x else 1

/-- The value where the function is defined and finite. -/
def trial (f : RealFunction) (x : Float) : Except Fault (Option Float) :=
  match f x with
  | .ok y => .ok (if y.isFinite then some y else none)
  | .error fault => if fault.isPole then .ok none else .error fault

def newtonSteps (f slope : RealFunction) (epsilon : Datum) : Nat → Float → Engine (Option Float)
  | 0, _ => return none
  | n + 1, x => do
    poll
    let value ← trial f x
    let rate ← trial slope x
    match value, rate with
    | some y, some d =>
      if d == 0 then return none
      else
        let bound ← epsilon.measure
        let step := y / d
        if y.abs < bound then return some x
        else if step.abs ≤ bound * atLeastOne (x - step).abs then return some (x - step)
        else newtonSteps f slope epsilon n (x - step)
    | _, _ => return none

def newton? (f slope : RealFunction) (start : Float) : Engine (Option Float) := do
  let limit ← count .maxNewtonIterations
  newtonSteps f slope (← setting .newtonEpsilon) limit.toNat start

def newton (f slope : RealFunction) (start : Float) : Engine Float := do
  match ← newton? f slope start with
  | some x => return x
  | none => throw (.noConvergence "Newton's method")

/-- Bisection for a number of steps; `below` tells the sign at the lower end. -/
def bisectionSteps (f : RealFunction) (epsilon : Datum) (below : Bool) :
    Nat → Float → Float → Engine Float
  | 0, _, _ => throw (.noConvergence "Bisection")
  | n + 1, low, high => do
    poll
    let middle := (low + high) / 2
    let value ← f middle
    if value == 0 then return middle
    else if (high - low) / 2 < (← epsilon.measure) then return middle
    else if (value < 0 : Bool) == below then bisectionSteps f epsilon below n middle high
    else bisectionSteps f epsilon below n low middle

def bisection (f : RealFunction) (low high : Float) : Engine Float := do
  let value ← f low
  if value == 0 then return low
  else
    let limit ← count .maxBisectionIterations
    bisectionSteps f (← setting .bisectionEpsilon) (value < 0) limit.toNat low high

/-- A nonnegative number rounded to the nearest integer, a half to the even one. -/
def roundEven (x : Float) : Except Fault Int :=
  match Binary64.toRat? x with
  | none => .error .unsupported
  | some a =>
    let n : Int := Binary64.roundQuotient a.num.natAbs a.den
    .ok (if a < 0 then -n else n)

def grid (radius : Float) (points : Nat) : List Float :=
  let step := 2 * radius / (points - 1).toFloat
  (List.range points).map fun k =>
    if k = 0 then -radius else if k + 1 = points then radius else k.toFloat * step + -radius

/-- A point of the scan with the function's value there. -/
abbrev Sample := Float × Option Float

/-- Bisection, if it meets no pole and ends. -/
def bisection? (f : RealFunction) (a b : Float) : Engine (Option Float) :=
  attempt (fun fault => fault.isPole || fault.kind == .iterations) (bisection f a b)

/-- A root between two points with a change of sign: Newton's method from the middle, or else
bisection. Where Newton's method leaves the interval, a bisection that does not end is tried once
more. -/
def rootBetween (f slope : RealFunction) (a b : Float) : Engine (Option Float) := do
  match ← newton? f slope ((a + b) / 2) with
  | none => bisection? f a b
  | some root =>
    if a ≤ root && root ≤ b then return some root
    else
      let first ← attempt (fun fault => fault.kind == .iterations)
        (attempt Fault.isPole (bisection f a b))
      match first with
      | some found => return found
      | none => bisection? f a b

/-- The size of the function has a small local minimum at a point. -/
def touches (before here after : Float) : Bool :=
  here.abs < before.abs && here.abs ≤ after.abs && here.abs < 1

/-- Candidates for roots: zeros, changes of sign, and small minima of the absolute value. -/
def scan (f slope : RealFunction) (before : Option Sample) : List Sample → Engine (List Float)
  | (a, fa) :: (b, fb) :: rest => do
    poll
    let found ←
      match fa, fb with
      | some ya, some yb =>
        if ya == 0 then pure [a]
        else if (ya < 0 : Bool) != (yb < 0 : Bool) then do
          pure (← rootBetween f slope a b).toList
        else
          match before with
          | some (_, some previous) =>
            if touches previous ya yb then do pure (← newton? f slope a).toList else pure []
          | _ => pure []
      | _, _ => pure []
    return found ++ (← scan f slope (some (a, fa)) ((b, fb) :: rest))
  | _ => return []

/-- Keeps the candidates at which the function is nearly zero, each once. -/
def confirm (f : RealFunction) (tolerance : Datum) (roots : List Float) :
    List Float → Except Fault (List Float)
  | [] => return roots
  | x :: xs => do
    let size := atLeastOne x.abs
    let isRoot ← match ← trial f x with
      | some y => do pure (decide (y.abs ≤ (← tolerance.measure) * size))
      | none => pure false
    let isNew := match roots.getLast? with
      | some last => 1e-7 * size < (x - last).abs
      | none => true
    confirm f tolerance (if isRoot && isNew then roots ++ [x] else roots) xs

/-- The last `n` items; a count that is not positive drops as many items instead. -/
def takeLast (n : Int) (xs : List α) : List α :=
  if 0 < n then xs.drop (xs.length - n.toNat) else xs.drop n.natAbs

/-- The first `n` items; a negative count drops as many items at the end instead. -/
def takeFirst (n : Int) (xs : List α) : List α :=
  if n < 0 then xs.take (xs.length - n.natAbs) else xs.take n.toNat

def maxScanPoints : Int := 1000000000

/-- Real roots in the configured interval, a bounded number on either side of zero. -/
def findRealRoots (f slope : RealFunction) : Engine (List Float) := do
  let radius ← measure .solveRadius
  let step ← measure .solveStep
  if step == 0 then throw .unsupported
  let points := (← roundEven (2 * radius / step)) + 1
  if points < 0 || maxScanPoints ≤ points then throw .unsupported
  let samples ← (grid radius points.toNat).mapM fun x => do return (x, ← trial f x)
  let candidates ← scan f slope none samples
  let sorted := candidates.mergeSort fun a b => decide (a ≤ b)
  let roots ← confirm f (← setting .rootTolerance) [] sorted
  let perSide ← count .rootsPerSide
  return takeLast perSide (roots.filter (· < 0)) ++ takeFirst perSide (roots.filter (0 ≤ ·))

/-- The value of an integrand; where it has none, quadrature cannot converge. -/
def integrand (f : RealFunction) (x : Float) : Except Fault Float :=
  match f x with
  | .ok y => if y.isFinite then .ok y else .error (.noConvergence "Quadrature")
  | .error fault =>
    if fault.isPole || fault.kind == .validation then .error (.noConvergence "Quadrature")
    else .error fault

def simpson (a b fa fm fb : Float) : Float := (b - a) / 6 * (fa + 4 * fm + fb)

/-- Simpson's rule on halves of an interval until the halves agree with the whole; the fault tells
what it means that the depth runs out. The tolerance need be a number only when it is compared. -/
def refine (f : RealFunction) (exhausted : Fault) :
    Nat → (a b fa fm fb whole : Float) → (tolerance : Except Fault Float) → Engine Float
  | depth, a, b, fa, fm, fb, whole, tolerance => do
    poll
    let m := (a + b) / 2
    let fl ← integrand f ((a + m) / 2)
    let fr ← integrand f ((m + b) / 2)
    let left := simpson a m fa fl fm
    let right := simpson m b fm fr fb
    let bound ← tolerance
    if (left + right - whole).abs ≤ 15 * bound then
      return left + right + (left + right - whole) / 15
    else
      match depth with
      | 0 => throw exhausted
      | depth + 1 =>
        let lower ← refine f exhausted depth a m fa fl fm left (.ok (bound / 2))
        return lower + (← refine f exhausted depth m b fm fr fb right (.ok (bound / 2)))

/-- How deep a setting lets quadrature go, and what it means that this is not enough. A setting that
is no number is refused where it is first looked at, one without bound where nesting ends. -/
def quadratureDepth (depth : Datum) : Nat × Fault :=
  match depth.floor? with
  | .ok (some n) =>
    let whole := match depth.isAbove n with
      | .ok true => n + 1
      | _ => n
    (whole.toNat, .noConvergence "Quadrature")
  | .ok none =>
    match depth.isBelow 0 with
    | .ok true => (0, .noConvergence "Quadrature")
    | _ => (300, .unsupported)
  | .error _ => (0, .unsupported)

def quadrature (f : RealFunction) (low high : Float) : Engine Float := do
  let fa ← integrand f low
  let fb ← integrand f high
  let fm ← integrand f ((low + high) / 2)
  let (depth, exhausted) := quadratureDepth (← setting .maxQuadratureDepth)
  let tolerance ← setting .quadratureTolerance
  refine f exhausted depth low high fa fm fb (simpson low high fa fm fb) tolerance.measure

def toRational (x : Float) : Engine Rat := do
  Rational.ofFloat x (← setting .maxDenominator)

end ExactAlgebra.Numeric
