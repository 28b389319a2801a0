import ExactAlgebra.Engine.Substitution

/-! Derivatives. A function without a rule gives an unevaluated derivative. -/
namespace ExactAlgebra
open Engine

namespace Expr

def oneMinusSquare (u : Expr) (p : Rat) : Except Fault Expr := do
  powRat (← sub one (← u.powRat 2)) p

def derivativeRule? : String → Option (Expr → Engine Expr)
  | "sin" => some fun u => apply "cos" u
  | "cos" => some fun u => do return neg (← apply "sin" u)
  | "tan" => some fun u => do (← apply "cos" u).powRat (-2)
  | "asin" => some fun u => u.oneMinusSquare (-1 / 2)
  | "acos" => some fun u => do return neg (← u.oneMinusSquare (-1 / 2))
  | "atan" => some fun u => do inv (← add one (← u.powRat 2))
  | "sinh" => some fun u => apply "cosh" u
  | "cosh" => some fun u => apply "sinh" u
  | "tanh" => some fun u => do (← apply "cosh" u).powRat (-2)
  | "asinh" => some fun u => do powRat (← add (← u.powRat 2) one) (-1 / 2)
  | "acosh" => some fun u => do powRat (← sub (← u.powRat 2) one) (-1 / 2)
  | "atanh" => some fun u => do inv (← sub one (← u.powRat 2))
  | "log" => some fun u => inv u
  | "abs" => some fun u => do div u (← apply "abs" u)
  | "erf" => some fun u => do
    let c ← div (number 2) (← sqrt (bare "pi"))
    mul c (← pow (bare "e") (neg (← u.powRat 2)))
  | _ => none

def inertDerivative (x name : String) (args : List Expr) : Expr :=
  inert "diff" [inert name args, bare x]

/-- The derivative of a call with coefficient and power one, given the derivative of its first
argument. -/
def deriveCall (x name : String) (args : List Expr) (inner : Engine Expr) : Engine Expr :=
  match args with
  | [u] =>
    match derivativeRule? name with
    | some rule => do
      let outer ← rule u
      mul outer (← inner)
    | none => return inertDerivative x name args
  | [u, v] =>
    return if name == "integrate" && v.isBare x then u else inertDerivative x name args
  | args => return inertDerivative x name args

def derivePower (c : Rat) (stem : Expr) (p : Rat) (inner : Engine Expr) : Engine Expr := do
  if p = 1 then return (← inner).scale c
  else
    let outer := (← stem.powRat (p - 1)).scale p
    return (← mul outer (← inner)).scale c

def withOthers (factors : List Expr) (total : Expr) (derived : Engine Expr × Nat) :
    Engine Expr := do
  let term ← derived.1
  if term.isZero then return total
  else add total (← mulAll term (factors.eraseIdx derived.2))

mutual
def derive (x : String) : Expr → Engine Expr
  | number _ => return zero
  | symbol c name p => do
    if name == x then return ((← (bare x).powRat (p - 1)).scale p).scale c else return zero
  | call c name args p => do
    if anyContains x args then
      let inner := (derivatives x args).headD (pure zero)
      derivePower c (inert name args) p (deriveCall x name args inner)
    else return zero
  | sum c terms p => do
    if anyContains x terms then
      let steps := terms.zipWith (fun t step => (t.termRank t.face, step)) (derivatives x terms)
      let share := if p = 1 then c else 1
      let inner := (sortByRank TermRank.le steps).foldlM
        (fun total step => do add total ((← step).scale share)) zero
      derivePower (if p = 1 then 1 else c) (sum 1 terms 1) p inner
    else return zero
  | product c factors => do
    if anyContains x factors then
      let total ← (derivatives x factors).zipIdx.foldlM (withOthers factors) zero
      return total.scale c
    else return zero
  | exponential c base exponent => do
    if base.contains x || exponent.contains x then
      let slope ← derive x exponent
      let rate ← mul slope (← apply "log" base)
      let rate ←
        if base.contains x then do
          let relative ← div (← derive x base) base
          add rate (← mul exponent relative)
        else pure rate
      mul (exponential c base exponent) rate
    else return zero
  | foreign _ => throw .unsupported

/-- The derivative of each expression, to be run in any order. -/
def derivatives (x : String) : List Expr → List (Engine Expr)
  | [] => []
  | e :: es => derive x e :: derivatives x es
end

/-- The derivative of some order; once it is zero it stays so. -/
def deriveTimes (x : String) : Nat → Expr → Engine Expr
  | 0, e => return e
  | n + 1, e => if e.isZero then return e else do deriveTimes x n (← derive x e)

def diff (e : Expr) (x : Option String) (n : Int) : Engine Expr := guarded do
  if n < 0 then throw .negativeOrder
  if x.isNone || 0 < n then e.checkOpen
  match x.or e.freeNames.head? with
  | none => return if n = 0 then e else zero
  | some x => deriveTimes x n.toNat e

end Expr

namespace Value

def unknowns : Value → Except Fault (List String)
  | expr e => do
    e.checkOpen
    return e.freeNames
  | equation left right => do
    let left ← left.toExpr
    left.checkOpen
    let right ← right.toExpr
    right.checkOpen
    return Expr.sortNames (left.freeNames ++ right.freeNames)
  | list _ => throw .unsupported

def unknown? (v : Value) (x : Option String) : Except Fault (Option String) :=
  match x with
  | some x => .ok (some x)
  | none => do return (← v.unknowns).head?

/-- The derivative of an expression of an order of any kind. Where there is no unknown, it matters
only whether the order is zero. -/
def diffExpr (e : Expr) (x : Option String) (order : Datum) : Engine Expr := guarded do
  if ← order.isBelow 0 then throw .negativeOrder
  match ← (expr e).unknown? x with
  | none => return if order.isTrue then .zero else e
  | some x => e.diff (some x) (← order.integer)

mutual
/-- The derivative of a value: of both sides of an equation, of every item of a list. -/
def diff (x : Option String) (n : Datum) : Value → Engine Value
  | expr e => do return expr (← diffExpr e x n)
  | equation left right => guarded do
    let x ← (equation left right).unknown? x
    let left ← diff x n left
    return equation left (← diff x n right)
  | list items => guarded do return list (← diffAll x n items)

def diffAll (x : Option String) (n : Datum) : List Value → Engine (List Value)
  | [] => return []
  | v :: vs => do
    let v ← diff x n v
    return v :: (← diffAll x n vs)
end

end Value
end ExactAlgebra
