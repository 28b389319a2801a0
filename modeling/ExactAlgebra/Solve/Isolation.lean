import ExactAlgebra.Engine.Substitution

/-! Isolation of an unknown that occurs in one place, by undoing the operations around it. An
inverse function may be one of the session's own and give a list, which goes on as the target until
something has to be undone that only an expression allows. -/
namespace ExactAlgebra.Expr
open Engine

/-- Finds the values of an unknown for which an expression has a target value; no answer means that
the unknown cannot be isolated. -/
abbrev Isolator := Value → Engine (Option (List Value))

/-- The functions with a single-valued inverse, and that inverse. -/
def inverseName? : String → Option String
  | "tan" => some "atan"
  | "asin" => some "sin"
  | "acos" => some "cos"
  | "atan" => some "tan"
  | "sinh" => some "asinh"
  | "tanh" => some "atanh"
  | "asinh" => some "sinh"
  | "acosh" => some "cosh"
  | "atanh" => some "tanh"
  | _ => none

def withNegative (e : Expr) : List Value := [.expr e, .expr (neg e)]

/-- The arguments at which a function takes a value. -/
def inverseRule? (name : String) : Option (Value → Engine (List Value)) :=
  match name, inverseName? name with
  | _, some inverse => some fun v => do return [← Engine.call inverse [v]]
  | "sin", _ => some fun v => do
    let first ← (← Engine.call "asin" [v]).toExpr
    return [.expr first, .expr (← sub (bare "pi") first)]
  | "cos", _ => some fun v => do return withNegative (← (← Engine.call "acos" [v]).toExpr)
  | "cosh", _ => some fun v => do return withNegative (← (← Engine.call "acosh" [v]).toExpr)
  | "log", _ => some fun v => do return [.expr (← pow (bare "e") (← v.toExpr))]
  | "abs", _ => some fun v => do return withNegative (← v.toExpr)
  | _, none => none

/-- The values whose power `p` is the target. -/
def rootsOfPower (target : Value) (p : Rat) : Except Fault (List Value) := do
  let value ← (← target.toExpr).powRat p⁻¹
  return if p.num % 2 = 0 then withNegative value else [.expr value]

/-- All values for all targets, if each target has an answer. -/
def isolateEach (isolator : Isolator) : List Value → Engine (Option (List Value))
  | [] => return some []
  | target :: targets => do
    match ← isolator target with
    | none => return none
    | some found =>
      match ← isolateEach isolator targets with
      | none => return none
      | some others => return some (found ++ others)

/-- An isolator that looks at the deadline first. -/
def isolateWatched (inner : Isolator) : Isolator := fun target => do
  poll
  inner target

/-- Undoes a power other than the first. -/
def isolatePower (p : Rat) (inner : Isolator) : Isolator := fun target => do
  if p = 1 then inner target
  else isolateEach (isolateWatched inner) (← rootsOfPower target p)

/-- Undoes a coefficient other than one, and then a power. -/
def isolateScaled (c p : Rat) (inner : Isolator) : Isolator := fun target => do
  if c = 1 then isolatePower p inner target
  else
    let quotient ← div (← target.toExpr) (number c)
    isolateWatched (isolatePower p inner) (.expr quotient)

/-- Undoes a function of one argument. -/
def isolateCall (name : String) (args : List Isolator) : Isolator := fun target => do
  match args, inverseRule? name with
  | [inner], some rule =>
    match ← attempt (fun fault => fault.kind == .outOfDomain) (rule target) with
    | none => return some []
    | some values => isolateEach inner values
  | _, _ => return none

/-- The only part that can hold the unknown, with its isolator. -/
def onlyPart? (x : String) (parts : List Expr) (isolators : List Isolator) :
    Option (Expr × Isolator) :=
  match (parts.zip isolators).filter fun (part, _) => part.contains x with
  | [only] => some only
  | _ => none

/-- Undoes the addition of all other terms. -/
def isolateSum (x : String) (terms : List Expr) (isolators : List Isolator) : Isolator :=
  fun target => do
    match onlyPart? x terms isolators with
    | none => return none
    | some (term, inner) =>
      let rest ← sub (sum 1 terms 1) term
      inner (.expr (← sub (← target.toExpr) rest))

/-- Undoes the multiplication by all other factors. -/
def isolateProduct (x : String) (factors : List Expr) (isolators : List Isolator) : Isolator :=
  fun target => do
    match onlyPart? x factors isolators with
    | none => return none
    | some (factor, inner) =>
      let rest ← div (product 1 factors) factor
      inner (.expr (← div (← target.toExpr) rest))

/-- Undoes an exponential in its base or in its exponent. -/
def isolateExponential (x : String) (base exponent : Expr) (inBase inExponent : Isolator) :
    Isolator := fun target => do
  if base.contains x && exponent.contains x then return none
  let target ← target.toExpr
  if base.contains x then inBase (.expr (← pow target (← inv exponent)))
  else if target.isZero then return some []
  else if base.isUnitE then inExponent (← Engine.call "log" [.expr target])
  else
    let top ← apply "log" target
    inExponent (.expr (← div top (← apply "log" base)))

mutual
/-- Solves `e = target` for an unknown that occurs once in `e`. -/
def isolate (x : String) : Expr → Isolator
  | number _ => fun _ => do
    poll
    return none
  | symbol c name p => fun target => do
    poll
    if name == x then isolateScaled c p (fun v => return some [v]) target else return none
  | call c name args p => fun target => do
    poll
    if anyContains x args then isolateScaled c p (isolateCall name (isolateAll x args)) target
    else return none
  | sum c terms p => fun target => do
    poll
    if anyContains x terms then isolateScaled c p (isolateSum x terms (isolateAll x terms)) target
    else return none
  | product c factors => fun target => do
    poll
    if anyContains x factors then
      isolateScaled c 1 (isolateProduct x factors (isolateAll x factors)) target
    else return none
  | exponential c base exponent => fun target => do
    poll
    if base.contains x || exponent.contains x then
      isolateScaled c 1
        (isolateExponential x base exponent (isolate x base) (isolate x exponent)) target
    else return none
  | foreign _ => fun _ => throw .unsupported

def isolateAll (x : String) : List Expr → List Isolator
  | [] => []
  | e :: es => isolate x e :: isolateAll x es
end

end ExactAlgebra.Expr
