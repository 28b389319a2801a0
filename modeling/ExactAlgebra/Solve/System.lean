import ExactAlgebra.Algebra.Simplification
import ExactAlgebra.Solve.Equation

/-! Linear systems with symbolic coefficients, by elimination. -/
namespace ExactAlgebra.LinearSystem
open Engine ExactAlgebra.Expr

/-- The coefficients of the unknowns in one equation, followed by its right side. -/
abbrev Row := List Expr

def Row.entry (row : Row) (column : Nat) : Expr := row.getD column zero

/-- The coefficient of one unknown in an expression that is linear in all unknowns. -/
def coefficient (names : List String) (e : Expr) (name : String) : Engine Expr := do
  match ← e.coeffs? name with
  | none => throw (.nonlinearIn name)
  | some cs =>
    if 2 < cs.length then throw (.nonlinearIn name)
    let c := cs.getD 1 zero
    if names.any (c.contains ·) then throw .productOfUnknowns
    return c

/-- Coefficients from left to right, while each unknown is put to zero in what remains. -/
def rowFrom (names : List String) (e : Expr) : List String → Expr → Engine Row
  | [], rest => do return [neg (← rest.expand)]
  | name :: later, rest => do
    let c ← coefficient names e name
    let rest ← rest.substitute name zero
    return c :: (← rowFrom names e later rest)

def rowOf (names : List String) (e : Expr) : Engine Row := rowFrom names e names e

/-- A row with a multiple of the pivot row taken away. -/
def clearRow (column : Nat) (pivot row : Row) : Engine Row := do
  let scale := row.entry column
  if scale.isZero then return row
  else (row.zip pivot).mapM fun (entry, above) => do (← sub entry (← mul scale above)).expand

/-- Brings a row with a nonzero entry to its place and clears the column in all other rows. -/
def eliminate (rows : List Row) (column : Nat) : Engine (List Row) := do
  poll
  match (List.range rows.length).find? fun r =>
      column ≤ r && !((rows.getD r []).entry column).isZero with
  | none => throw .noUniqueSolution
  | some place =>
    let found := rows.getD place []
    let rows := (rows.set place (rows.getD column [])).set column found
    let pivot ← found.mapM fun entry => div entry (found.entry column)
    rows.zipIdx.mapM fun (row, r) => if r = column then return pivot else clearRow column pivot row

def unknowns (es : List Expr) : Except Fault (List String) := do
  es.forM checkOpen
  return sortNames (es.flatMap freeNames)

/-- The value of each of the given unknowns, for expressions that are to be zero. -/
def solveFor (names : List String) (es : List Expr) : Engine (List (String × Expr)) := do
  let rows ← es.mapM (rowOf names)
  let n := names.length
  if rows.length < n then throw (.underdetermined rows.length n)
  let rows ← (List.range n).foldlM eliminate rows
  for row in rows.drop n do
    if !(← (row.entry n).simplify).isZero then throw .inconsistentSystem
  (names.zip rows).mapM fun (name, row) => do return (name, ← (row.entry n).simplify)

def solve (es : List Expr) (names : Option (List String)) : Engine (List (String × Expr)) :=
  guarded do
    if es.isEmpty then throw .noEquations
    let names ← match names with
      | some names => pure names
      | none => unknowns es
    if names.isEmpty then throw .noVariables
    solveFor names es

def solveValues (values : List Value) (names : Option (List String)) :
    Engine (List (String × Expr)) := do
  solve (← values.mapM fun v => v.toZero) names

end ExactAlgebra.LinearSystem
