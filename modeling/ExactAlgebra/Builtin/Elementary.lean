import ExactAlgebra.Arithmetic.Product
import ExactAlgebra.Numeric.Formula
import ExactAlgebra.Value

/-! The elementary functions on expressions. Each gives an exact value where there is one, uses the
symmetry of odd and even functions to take a negative sign out, undoes its inverse, and is left
unevaluated otherwise. -/
namespace ExactAlgebra.Elementary
open ExactAlgebra.Expr

/-- `k` when the expression is `k * pi`. -/
def piMultiple? : Expr → Option Rat
  | .number c => if c = 0 then some 0 else none
  | .symbol c name p => if name == "pi" && p == 1 then some c else none
  | _ => none

def halfRoot (n : Nat) : Expr := .symbol (1 / 2) (toString n) (1 / 2)

/-- The sine of `k * pi` for `k` between zero and one half. -/
def firstQuadrant? (k : Rat) : Option Expr :=
  if k = 0 then some zero
  else if k = 1 / 6 then some (number (1 / 2))
  else if k = 1 / 4 then some (halfRoot 2)
  else if k = 1 / 3 then some (halfRoot 3)
  else if k = 1 / 2 then some one
  else none

/-- The sine of `k * pi`, for the multiples with a value of at most one root. -/
def sineOfPiMultiple? (k : Rat) : Option Expr :=
  let k := k - 2 * ((k / 2).floor : Rat)
  let (flipped, k) := if 1 ≤ k then (true, k - 1) else (false, k)
  (firstQuadrant? (if 1 / 2 < k then 1 - k else k)).map fun v => if flipped then neg v else v

def exactSine? (x : Expr) : Option Expr := (piMultiple? x).bind sineOfPiMultiple?

/-- The cosine at a rational multiple of `pi`, read as the sine of the complement. -/
def exactCosine? (x : Expr) : Option Expr :=
  (piMultiple? x).bind fun k => sineOfPiMultiple? (1 / 2 - k)

/-- An unevaluated call, unless the argument is a bare call of the inverse. -/
def undo (name inverse : String) (x : Expr) : Expr :=
  match x.bareCall? with
  | some (f, u :: _) => if f == inverse then u else inert name [x]
  | _ => inert name [x]

/-- An odd function from its values at arguments without a minus sign. -/
def odd (f : Expr → Expr) (x : Expr) : Expr := if x.coeff < 0 then neg (f (neg x)) else f x

def even (f : Expr → Expr) (x : Expr) : Expr := if x.coeff < 0 then f (neg x) else f x

def sin (x : Expr) : Expr := (exactSine? x).getD (odd (undo "sin" "asin") x)

def cos (x : Expr) : Expr := (exactCosine? x).getD (even (undo "cos" "acos") x)

def tan (x : Expr) : Except Fault Expr :=
  match exactSine? x, exactCosine? x with
  | some s, some c => do
    if c.isZero then throw (.undefinedAt "tan" (← x.render))
    div s c
  | _, _ => .ok (odd (undo "tan" "atan") x)

/-- The multiple of `pi` whose sine is a given number between zero and one. -/
def angleOf? (v : Rat) : Option Rat :=
  if v = 0 then some 0 else if v = 1 / 2 then some (1 / 6) else if v = 1 then some (1 / 2) else none

/-- Refuses a number outside the interval from minus one to one. -/
def checkUnit (name : String) (x : Expr) : Except Fault Unit :=
  match x with
  | .number v =>
    if 1 < Rational.abs v then do throw (.undefinedAt name (← x.render)) else .ok ()
  | _ => .ok ()

def exactAngle? : Expr → Option Expr
  | .number v => (angleOf? (Rational.abs v)).map fun k => (bare "pi").scale (k * Rational.sign v)
  | _ => none

def asin (x : Expr) : Except Fault Expr := do
  checkUnit "asin" x
  return (exactAngle? x).getD (odd (fun x => inert "asin" [x]) x)

/-- The arc cosine, a right angle less the arc sine where that is exact. -/
def acos (x : Expr) : Except Fault Expr := do
  checkUnit "acos" x
  match exactAngle? x with
  | some angle => sub ((bare "pi").scale (1 / 2)) angle
  | none =>
    if x.coeff < 0 then sub (bare "pi") (inert "acos" [neg x]) else return inert "acos" [x]

def atan : Expr → Expr := odd fun x =>
  if x.isZero then zero
  else if x.isOne then (bare "pi").scale (1 / 4)
  else inert "atan" [x]

def oddAtZero (name : String) : Expr → Expr :=
  odd fun x => if x.isZero then zero else inert name [x]

def cosh : Expr → Expr := even fun x => if x.isZero then one else inert "cosh" [x]

def acosh (x : Expr) : Expr := if x.isOne then zero else inert "acosh" [x]

def log (x : Expr) : Except Fault Expr :=
  if x.isZero then .error .logOfZero
  else if x.isOne then .ok zero
  else .ok <|
    match x with
    | .symbol c name p => if c = 1 && name == "e" then number p else inert "log" [x]
    | .exponential c base exponent =>
      if c = 1 && base.isUnitE then exponent else inert "log" [x]
    | x => inert "log" [x]

def log10 (x : Expr) : Except Fault Expr := do div (← log x) (inert "log" [number 10])

def exp (x : Expr) : Except Fault Expr := pow (bare "e") x

/-- The absolute value; it is known for numbers, powers of `pi` and `e`, and absolute values. -/
def abs (x : Expr) : Expr :=
  let size := Rational.abs x.coeff
  match x.unit with
  | .number _ => number size
  | .symbol c name p =>
    if name == "pi" || name == "e" then symbol (c * size) name p
    else (inert "abs" [x.unit]).scale size
  | .call c name args p =>
    if name == "abs" && p == 1 then call (c * size) name args p
    else (inert "abs" [x.unit]).scale size
  | unit => (inert "abs" [unit]).scale size

/-- The factorial of `n` has more bits than exact integers may have, by the bound `n log n`. -/
def factorialIsTooLarge (n : Nat) : Except Fault Bool := do
  let size ← Binary64.ofRat n
  return 1 < n && maxIntegerBits.toFloat < size * Float.log2 size

def factorialOf : Nat → Nat
  | 0 => 1
  | n + 1 => (n + 1) * factorialOf n

def factorial (x : Expr) : Except Fault Expr :=
  match x.integer? with
  | none => .ok (inert "factorial" [x])
  | some n => do
    if n < 0 then do
      discard x.render
      throw (.factorialOfNegative n)
    if ← factorialIsTooLarge n.toNat then throw (.factorialTooLarge n)
    return number (factorialOf n.toNat)

/-- The remainder with the sign of the divisor, of numbers. -/
def mod (a b : Expr) : Except Fault Expr :=
  match a, b with
  | .number x, .number y => do return number (← Rational.modulo x y)
  | a, b => .ok (inert "mod" [a, b])

/-- The one of two that is chosen: the smaller or the larger, the first of equal ones. -/
def choose (least : Bool) (best new : Expr × Float) : Expr × Float :=
  let better := if least then new.2 < best.2 else best.2 < new.2
  if better then new else best

def constants? : List Value → Except Fault (Option (List Expr))
  | [] => return some []
  | .expr e :: rest => do
    e.checkOpen
    if e.isConstant then return (← constants? rest).map (e :: ·) else return none
  | _ :: _ => return none

def extreme (name : String) (least : Bool) (args : List Value) : Except Fault Expr := do
  match ← constants? args with
  | some es =>
    match ← es.mapM fun e => do return (e, ← e.toFloat) with
    | [] => throw .unsupported
    | first :: rest => return (rest.foldl (choose least) first).1
  | none => return inert name (args.map Value.toArgument)

end ExactAlgebra.Elementary
