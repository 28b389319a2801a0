import ExactAlgebra.Engine.Basic
import ExactAlgebra.Arithmetic.Product

/-! Rebuilding a tree through the arithmetic, with values put for symbols. Calls are made again,
so a function can evaluate once its arguments are known. -/
namespace ExactAlgebra.Expr
open Engine

/-- A replacement for a symbol; only an expression can be put into a tree. -/
def leafOf (leaf : String → Option Value) (name : String) : Except Fault Expr :=
  match leaf name with
  | some (.expr e) => if e.isCopyable then .ok e else .error .unsupported
  | some _ => .error .unsupported
  | none => .ok (if isIntegerText name then number (integerOf name) else bare name)

mutual
/-- Rebuilds a tree, replacing each symbol for which `leaf` gives a value. -/
def rebuild (leaf : String → Option Value) : Expr → Engine Expr
  | number c => return number c
  | symbol c name p => do
    return (← (← leafOf leaf name).powRat p).scale c
  | call c name args p => do
    let result ← callExpr name (← rebuildAll leaf args)
    return (← result.powRat p).scale c
  | exponential c base exponent => do
    let base ← rebuild leaf base
    return (← pow base (← rebuild leaf exponent)).scale c
  | product c factors => rebuildProduct leaf (number c) factors
  | sum c terms p => do
    let total ← rebuildSum leaf zero terms
    return (← total.powRat p).scale c
  | foreign _ => throw .unsupported

def rebuildAll (leaf : String → Option Value) : List Expr → Engine (List Expr)
  | [] => return []
  | e :: es => do
    let e ← rebuild leaf e
    return e :: (← rebuildAll leaf es)

def rebuildSum (leaf : String → Option Value) (total : Expr) : List Expr → Engine Expr
  | [] => return total
  | t :: ts => do rebuildSum leaf (← add total (← rebuild leaf t)) ts

def rebuildProduct (leaf : String → Option Value) (result : Expr) : List Expr → Engine Expr
  | [] => return result
  | f :: fs => do rebuildProduct leaf (← mul result (← rebuild leaf f)) fs
end

def substitute (e : Expr) (name : String) (value : Expr) : Engine Expr :=
  rebuild (fun leaf => if leaf == name then some (.expr value) else none) e

/-- Rebuilds a tree as it is. -/
def canonicalize (e : Expr) : Engine Expr := rebuild (fun _ => none) e

end ExactAlgebra.Expr
