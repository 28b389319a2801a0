import ExactAlgebra.Engine.Expansion

/-! Coefficients of an expression in one unknown. -/
namespace ExactAlgebra.Expr
open Engine

/-- The positive integer power of `x` that a factor is. -/
def naturalPower? (x : String) : Expr → Option Nat
  | symbol _ name p => if name == x && Rational.isInteger p && 0 < p then some p.num.toNat else none
  | _ => none

/-- A term as a coefficient free of `x` times a power of `x`. -/
def termDegree? (x : String) (term : Expr) : Except Fault (Option (Expr × Nat)) :=
  if !term.contains x then .ok (some (term, 0))
  else
    match term with
    | symbol c name p => .ok ((naturalPower? x (symbol c name p)).map fun n => (number c, n))
    | product c factors =>
      match (factors.find? (·.baseKey == x)).bind (naturalPower? x) with
      | none => .ok none
      | some n => do
        let rest ← mulAll (number c) (factors.filter fun f => f.baseKey != x)
        return if rest.contains x then none else some (rest, n)
    | _ => .ok none

def addAt : Nat → Expr → List Expr → Except Fault (List Expr)
  | 0, e, [] => return [e]
  | 0, e, c :: cs => return (← add c e) :: cs
  | n + 1, e, [] => return zero :: (← addAt n e [])
  | n + 1, e, c :: cs => return c :: (← addAt n e cs)

/-- Drops zeros at the end, but keeps one coefficient. -/
def dropZeroTail : List Expr → List Expr
  | [] => []
  | c :: cs =>
    match dropZeroTail cs with
    | [] => [c]
    | [d] => if d.isZero then [c] else [c, d]
    | ds => c :: ds

def collect (x : String) (collected : List Expr) :
    List Expr → Except Fault (Option (List Expr))
  | [] => .ok (some collected)
  | term :: terms => do
    match ← termDegree? x term with
    | none => return none
    | some (c, n) => do collect x (← addAt n c collected) terms

/-- The coefficients in `x`, the lowest power first, if the expression is a polynomial in `x`. -/
def coeffs? (e : Expr) (x : String) : Engine (Option (List Expr)) := do
  let expanded ← e.expand
  match ← collect x [] expanded.spreadTerms with
  | none => return none
  | some cs => return some (dropZeroTail cs)

def degree? (e : Expr) (x : String) : Engine (Option Nat) := do
  return (← e.coeffs? x).map (·.length - 1)

/-- A coefficient free of `x` and the rest, whose product is the expression. -/
def stripCoefficient (e : Expr) (x : String) : Except Fault (Expr × Expr) := do
  e.checkOpen
  if !e.contains x then return (e, one)
  match e with
  | product c factors =>
    let coefficient ← mulAll (number c) (factors.filter fun f => !f.contains x)
    let rest ← mulAll one (factors.filter fun f => f.contains x)
    return (coefficient, rest)
  | e => return (number e.coeff, e.unit)

/-- `(a, b)` for an expression `a * x + b` with `a` and `b` free of `x` and `a` not zero. -/
def linear? (e : Expr) (x : String) : Engine (Option (Expr × Expr)) := do
  match ← e.coeffs? x with
  | some [b, a] => return if a.isZero then none else some (a, b)
  | _ => return none

/-- `(a, h, k)` for a quadratic `a * (x + h)^2 + k`. -/
def completeSquare? (e : Expr) (x : String) : Engine (Option (Expr × Expr × Expr)) := do
  match ← e.coeffs? x with
  | some [c, b, a] => do
    let h ← div b (← mul (number 2) a)
    let k ← sub c (← div (← mul b b) (← mul (number 4) a))
    return some (a, h, k)
  | _ => return none

end ExactAlgebra.Expr
