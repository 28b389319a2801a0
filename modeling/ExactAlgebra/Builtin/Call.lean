import ExactAlgebra.Algebra.Simplification
import ExactAlgebra.Builtin.Elementary
import ExactAlgebra.Calculus.Definite
import ExactAlgebra.Calculus.Limit
import ExactAlgebra.Laplace.Inverse
import ExactAlgebra.Solve.System

/-! Calls. A function is found by name, its arguments are counted, a list in the first place is
entered item by item, and then the built-in rule, the definition or the given rule is applied. -/
namespace ExactAlgebra
open Engine

/-- The name that an argument stands for; constants and anything but a bare symbol are refused. -/
def Value.symbolName (v : Value) (role : String) : Except Fault String := do
  match v with
  | .expr e =>
    match e.bareName? with
    | some name => if isConstantName name then throw (.constantAsName name role) else return name
    | none => throw (.expectedName role (← v.shown))
  | v => throw (.expectedName role (← v.shown))

def optionalName : List Value → Except Fault (Option String)
  | [] => .ok none
  | v :: _ => do return some (← v.symbolName "variable")

def Value.integerFor (v : Value) (function : String) : Except Fault Int := do
  match v with
  | .expr e =>
    match e.integer? with
    | some n => return n
    | none => throw (.expectedInteger function (← v.shown))
  | v => throw (.expectedInteger function (← v.shown))

/-- The coefficients of a polynomial, and its unknown: the given one or the only one that occurs.
A constant has no unknown. -/
def polynomialIn (function : String) (e : Expr) (x : Option String) :
    Engine (List Expr × Option String) := do
  let inUnknown (x : String) : Engine (List Expr × Option String) := do
    match ← e.coeffs? x with
    | some cs => return (cs, some x)
    | none => throw (.notPolynomialIn function x (← e.render))
  e.checkOpen
  match x, e.freeNames with
  | some x, _ => inUnknown x
  | none, [] => return ([e], none)
  | none, [x] => inUnknown x
  | none, _ => throw (.ambiguousVariable function (← e.render))

namespace Builtin

/-- The rule works on a copy of its argument: it takes a sign out, or makes a power or a product. -/
def copies (function : Builtin) (x : Expr) : Bool :=
  match function with
  | sec | csc | cot | log10 | exp | sqrt => true
  | sin | cos | tan | asin | acos | atan | sinh | cosh | tanh | asinh | atanh | erf => x.coeff < 0
  | _ => false

def onExpr? : Builtin → Option (Expr → Engine Expr)
  | sin => some fun x => return Elementary.sin x
  | cos => some fun x => return Elementary.cos x
  | tan => some fun x => Elementary.tan x
  | sec => some fun x => Expr.inv (Elementary.cos x)
  | csc => some fun x => Expr.inv (Elementary.sin x)
  | cot => some fun x => do Expr.inv (← Elementary.tan x)
  | asin => some fun x => Elementary.asin x
  | acos => some fun x => Elementary.acos x
  | atan => some fun x => return Elementary.atan x
  | sinh => some fun x => return Elementary.oddAtZero "sinh" x
  | cosh => some fun x => return Elementary.cosh x
  | tanh => some fun x => return Elementary.oddAtZero "tanh" x
  | asinh => some fun x => return Elementary.oddAtZero "asinh" x
  | acosh => some fun x => return Elementary.acosh x
  | atanh => some fun x => return Elementary.oddAtZero "atanh" x
  | erf => some fun x => return Elementary.oddAtZero "erf" x
  | log10 => some fun x => Elementary.log10 x
  | exp => some fun x => Elementary.exp x
  | sqrt => some fun x => Expr.sqrt x
  | abs => some fun x => if x.isCopyable then return Elementary.abs x else throw .unsupported
  | factorial => some fun x => Elementary.factorial x
  | expand => some Expr.expand
  | simplify => some Expr.simplify
  | factor => some Expr.factor
  | _ => none

def inUnknown? : Builtin → Option (Expr → Option String → Engine Value)
  | partfrac => some fun e x => do return .expr (← e.partfrac x)
  | sqcomp => some fun e x => do return .expr (← e.squareCompletion x)
  | deg => some fun e x => do
    let (cs, _) ← polynomialIn "deg" e x
    return .expr (.number (cs.length - 1 : Nat))
  | coeffs => some fun e x => do return .ofExprs (← polynomialIn "coeffs" e x).1
  | roots => some fun e x => do
    match ← polynomialIn "roots" e x with
    | (_, some x) => return .ofExprs (← e.solve (some x))
    | (_, none) => return .list []
  | _ => none

def onPair? : Builtin → Option (Expr → Expr → Option String → Engine Value)
  | gcd => some fun a b x => do return .expr (← a.polyGcd b x)
  | lcm => some fun a b x => do return .expr (← a.polyLcm b x)
  | divide => some fun a b x => do
    let (quotient, remainder) ← a.polyDivide b x
    return .ofExprs [quotient, remainder]
  | _ => none

def onValues : Builtin → List Value → Engine Value
  | log, [x] => do return .expr (← Elementary.log (← x.toExpr))
  | log, [x, base] => do
    let top ← Elementary.log (← x.toExpr)
    let bottom ← Elementary.log (← base.toExpr)
    if !bottom.isZero then
      own bottom
      own top
    return .expr (← Expr.div top bottom)
  | mod, [a, b] => do
    let b ← b.toExpr
    if b.isZero then throw .moduloByZero
    return .expr (← Elementary.mod (← a.toExpr) b)
  | min, [.list args] | min, args => do return .expr (← Elementary.extreme "min" true args)
  | max, [.list args] | max, args => do return .expr (← Elementary.extreme "max" false args)
  | diff, f :: rest => do
    let x ← optionalName rest
    let order ← match rest.drop 1 with
      | [] => pure 1
      | n :: _ => n.integerFor "diff"
    f.diff x (.whole order)
  | integrate, f :: rest => do f.integrate (← optionalName rest)
  | defint, f :: low :: high :: rest => do
    let x ← optionalName rest
    return .expr (← f.defint low high x)
  | sum, [f, index, low, high] => do
    let index ← index.symbolName "index"
    return .expr (← f.series .sum (some index) low high)
  | product, [f, index, low, high] => do
    let index ← index.symbolName "index"
    return .expr (← f.series .product (some index) low high)
  | limit, [f, x, point] => do
    let x ← x.symbolName "variable"
    return .expr (← (← f.toExpr).limit x point)
  | laplace, [f, t, s] => do
    let t ← t.symbolName "variable"
    f.laplace t (← s.symbolName "variable")
  | ilt, [f, s, t] => do
    let s ← s.symbolName "variable"
    f.ilt s (← t.symbolName "variable")
  | solve, f :: rest => do
    let x ← optionalName rest
    return .ofExprs (← f.solve x)
  | _, _ => throw .unsupported

def run (function : Builtin) (args : List Value) : Engine Value := do
  match onExpr? function, inUnknown? function, onPair? function, args with
  | some rule, _, _, [v] =>
    let x ← v.toExpr
    if function.copies x then own x
    return .expr (← rule x)
  | _, some rule, _, v :: rest =>
    let x ← optionalName rest
    rule (← v.toExpr) x
  | _, _, some rule, a :: b :: rest =>
    let x ← optionalName rest
    let a ← a.toExpr
    rule a (← b.toExpr) x
  | _, _, _, args => onValues function args

end Builtin

/-- The value given for a parameter; of two parameters with one name the last counts. -/
def argumentOf (params : List String) (args : List Value) (name : String) : Option Value :=
  (params.zip args).reverse.lookup name

def FunctionSpec.apply (spec : FunctionSpec) (args : List Value) : Engine Value :=
  match spec.body with
  | .builtin function => function.run args
  | .definition params body => do
    return .expr (← (← body.toExpr).rebuild (argumentOf params args))
  | .native rule => rule args

mutual
/-- Applies a function with a given first argument; unless it takes lists, it goes into them. -/
def FunctionSpec.applyTo (spec : FunctionSpec) (rest : List Value) : Value → Engine Value
  | .list items => do
    if spec.takesLists then spec.apply (.list items :: rest)
    else return .list (← spec.applyToAll rest items)
  | v => spec.apply (v :: rest)

def FunctionSpec.applyToAll (spec : FunctionSpec) (rest : List Value) :
    List Value → Engine (List Value)
  | [] => return []
  | v :: vs => do
    let v ← spec.applyTo rest v
    return v :: (← spec.applyToAll rest vs)
end

/-- Calls a function by name; an unknown name is left unevaluated. -/
def callFunction (name : String) (args : List Value) : Engine Value := do
  match (← read).scope.functions.lookup name with
  | none => return .expr (.inert name (args.map Value.toArgument))
  | some spec =>
    spec.checkArity args.length
    match args with
    | [] => spec.apply []
    | first :: rest => spec.applyTo rest first

def callWithin : Nat → Scope → String → List Value → Watch Value
  | 0, _, _, _ => throw .unsupported
  | n + 1, scope, name, args => callFunction name args ⟨scope, callWithin n⟩

def maxCallDepth : Nat := 200

def Engine.runIn (scope : Scope) (x : Engine α) : Except Fault α :=
  ((x ⟨scope, callWithin maxCallDepth⟩).run.run 0).1

end ExactAlgebra
