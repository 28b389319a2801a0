import ExactAlgebra.Numeric.Quantity

/-! Expressions compiled to numeric formulas. Compilation rounds every exact number once; a number
too large for binary64, and a function without a numeric meaning, are refused there. -/
namespace ExactAlgebra
open Numeric

/-- An expression ready for evaluation in binary64. -/
inductive Formula
  | constant (value : Quantity)
  | input (name : String)
  | apply (function : Builtin) (args : List Formula)
  | sum (terms : List Formula)
  | product (factors : List Formula)
  | power (base exponent : Formula)
  /-- A constant power; one too large for binary64 is refused when it is used. -/
  | raised (base : Formula) (exponent : Option Float)
  | scaled (factor : Float) (inner : Formula)
deriving Inhabited

abbrev Inputs := List (String × Quantity)

def Builtin.ofName? (name : String) : Option Builtin := (Builtin.table.lookup name).map (·.1)

def Builtin.numeric (name : String) : Except Fault Builtin :=
  match Builtin.ofName? name with
  | some f => if isNumeric f then .ok f else .error (.notNumeric name)
  | none => .error (.notNumeric name)

namespace Formula

def scale (c : Float) (formula : Formula) : Formula := if c == 1 then formula else scaled c formula

def raise (formula : Formula) (p : Rat) : Except Fault Formula :=
  if p = 1 then .ok formula
  else if Rational.isInteger p then .ok (raised formula (Binary64.ofRat? p))
  else do return raised formula (some (← Binary64.ofRat p))

def ofName (name : String) : Except Fault Formula :=
  if isIntegerText name then do return constant (.real (← Binary64.ofRat (integerOf name)))
  else if name == "pi" then .ok (constant (.real pi))
  else if name == "e" then .ok (constant (.real 2.718281828459045))
  else if name == "i" then .ok (constant (.complex ⟨0, 1⟩))
  else .ok (input name)

mutual
def ofExpr : Expr → Except Fault Formula
  | .number c => do return constant (.real (← Binary64.ofRat c))
  | .symbol c name p => do
    let c ← Binary64.ofRat c
    return scale c (← (← ofName name).raise p)
  | .call c name args p => do
    let c ← Binary64.ofRat c
    let function ← Builtin.numeric name
    return scale c (← (apply function (← ofExprs args)).raise p)
  | .sum c terms p => do
    let c ← Binary64.ofRat c
    return scale c (← (sum (← ofExprs terms)).raise p)
  | .product c factors => do
    let c ← Binary64.ofRat c
    return scale c (product (← ofExprs factors))
  | .exponential c base exponent => do
    let c ← Binary64.ofRat c
    let base ← ofExpr base
    return scale c (power base (← ofExpr exponent))
  | .foreign _ => throw .unsupported

def ofExprs : List Expr → Except Fault (List Formula)
  | [] => return []
  | e :: es => do
    let e ← ofExpr e
    return e :: (← ofExprs es)
end

mutual
/-- The value of a formula; with `asData` functions see every argument as data. -/
def evaluate (asData : Bool) (inputs : Inputs) : Formula → Except Fault Quantity
  | constant value => .ok value
  | input name =>
    match inputs.lookup name with
    | some value => .ok value
    | none => .error (.unboundVariable name)
  | apply function args => do Quantity.apply asData function (← evaluateAll asData inputs args)
  | sum terms => sumOf asData inputs (.real 0) terms
  | product factors => productOf asData inputs (.real 1) factors
  | power base exponent => do
    let base ← evaluate asData inputs base
    base.pow (← evaluate asData inputs exponent)
  | raised base exponent => do
    let base ← evaluate asData inputs base
    match exponent with
    | some p => base.pow (.real p)
    | none => .error .numericFailure
  | scaled factor inner => do Quantity.mul (.real factor) (← evaluate asData inputs inner)

def evaluateAll (asData : Bool) (inputs : Inputs) : List Formula → Except Fault (List Quantity)
  | [] => return []
  | f :: fs => do
    let value ← evaluate asData inputs f
    return value :: (← evaluateAll asData inputs fs)

def sumOf (asData : Bool) (inputs : Inputs) (total : Quantity) :
    List Formula → Except Fault Quantity
  | [] => return total
  | f :: fs => do sumOf asData inputs (← total.add (← evaluate asData inputs f)) fs

def productOf (asData : Bool) (inputs : Inputs) (total : Quantity) :
    List Formula → Except Fault Quantity
  | [] => return total
  | f :: fs => do productOf asData inputs (← total.mul (← evaluate asData inputs f)) fs
end

def value (formula : Formula) (inputs : List (String × Float)) : Except Fault Float := do
  (← formula.evaluate false (inputs.map fun (name, x) => (name, .real x))).toReal

def function (formula : Formula) (name : String) (x : Float) : Except Fault Float :=
  formula.value [(name, x)]

/-- The value on data; a refusal of constant parts is an unsupported computation. -/
def onData (formula : Formula) (inputs : Inputs) : Except Fault Quantity :=
  match formula.evaluate true inputs with
  | .error fault => .error (if fault.isPole then .unsupported else fault)
  | .ok result => .ok result

end Formula

def Expr.toFloat (e : Expr) : Except Fault Float := do (← Formula.ofExpr e).value []

end ExactAlgebra
