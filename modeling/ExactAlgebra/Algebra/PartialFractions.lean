import ExactAlgebra.Algebra.Fraction

/-! Partial fractions over the rationals. The numerators over the powers of each factor of the
denominator are the solution of one linear system. -/
namespace ExactAlgebra
open Engine

namespace Poly

/-- The powers of a factor that occur below a line, from the first to its multiplicity. -/
def factorPowers (factors : Factors) : List (Poly × Nat) :=
  factors.flatMap fun (q, multiplicity) => (List.range multiplicity).map fun k => (q, k + 1)

/-- One polynomial for each unknown numerator coefficient: its share of the numerator over the
whole denominator. -/
def fractionBasis (d : Poly) (factors : Factors) : List Poly :=
  (factorPowers factors).flatMap fun (q, k) =>
    let cofactor := quot d (pow q k)
    (List.range (q.coefficients.length - 1)).map fun j => mul cofactor (shift j)

/-- The matrix whose columns are the coefficients of the basis, if that is square. -/
def fractionMatrix? (d : Poly) (factors : Factors) : Option (List (List Rat)) :=
  let basis := fractionBasis d factors
  let size := d.coefficients.length - 1
  if basis.length ≠ size then none
  else some ((List.range size).map fun row => basis.map fun b => b.coeff row)

def partialNumerators? (remainder d : Poly) (factors : Factors) :
    Option (List (Poly × Poly × Nat)) :=
  (fractionMatrix? d factors).bind fun matrix =>
    (Elimination.solve? matrix ((List.range matrix.length).map remainder.coeff)).map
      (distributeOver (factorPowers factors))
where
  /-- Cuts the solution into numerators, as many coefficients as each factor has degrees. -/
  distributeOver : List (Poly × Nat) → List Rat → List (Poly × Poly × Nat)
    | [], _ => []
    | (q, k) :: powers, solution =>
      let degree := q.coefficients.length - 1
      (ofList (solution.take degree), q, k) :: distributeOver powers (solution.drop degree)

/-- The steps to the numerators: those of the divisions for the basis, and one for each column of
the linear system. -/
def numeratorSteps (d : Poly) (factors : Factors) : Nat :=
  let divisions := (factorPowers factors).foldl
    (fun total (q, k) => total + divisionSteps d (pow q k)) 0
  let columns := match fractionMatrix? d factors with
    | some matrix => Elimination.columnSteps matrix.length [] matrix
    | none => 0
  divisions + columns

end Poly

namespace Expr

def addFractions (x : String) (result : Expr) (parts : List (Poly × Poly × Nat)) :
    Except Fault Expr :=
  parts.foldlM (fun result (top, q, k) => do
    if top.isZero then return result
    else
      let below ← (← q.toExpr x).powRat k
      add result (← div (← top.toExpr x) below)) result

/-- The partial fractions in the given unknown or the only one that occurs; an expression that is
no rational function of it over the rationals stays as it is. -/
def partfrac (e : Expr) (x : Option String) : Engine Expr := guarded do
  e.checkOpen
  match e.mainVariable? x with
  | none => return e
  | some x =>
    let (numerator, denominator) ← e.together
    let n ← numerator.poly? x
    let d ← denominator.poly? x
    match n, d with
    | some n, some d =>
      if d.degree < 1 then return e
      else
        let (quotient, remainder) ← n.division d
        let result ← quotient.toExpr x
        if remainder.isZero then return result
        else
          let (_, factors) ← d.findFactors
          pollSteps fun _ => d.numeratorSteps factors
          match Poly.partialNumerators? remainder d factors with
          | none => return e
          | some parts => addFractions x result parts
    | _, _ => return e

end Expr
end ExactAlgebra
