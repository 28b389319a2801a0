import ExactAlgebra.Rational.Basic

/-! Linear systems over the rationals, solved by Gauss-Jordan elimination on augmented rows. -/
namespace ExactAlgebra.Elimination

/-- Splits rows at the first one with a nonzero entry in a column. -/
def pivotRow? (column : Nat) :
    List (List Rat) → Option (List (List Rat) × List Rat × List (List Rat))
  | [] => none
  | row :: rows =>
    if row.getD column 0 ≠ 0 then some ([], row, rows)
    else (pivotRow? column rows).map fun (before, pivot, after) => (row :: before, pivot, after)

/-- Puts the pivot row in front, the front row in its place. -/
def bringForward (before : List (List Rat)) (pivot : List Rat) (after : List (List Rat)) :
    List Rat × List (List Rat) :=
  match before with
  | [] => (pivot, after)
  | first :: others => (pivot, others ++ first :: after)

/-- Takes from a row the multiple of the pivot row that clears a column. -/
def clear (column : Nat) (pivot row : List Rat) : List Rat :=
  let k := row.getD column 0
  if k = 0 then row else row.zipWith (fun a b => a - k * b) pivot

/-- One column: finds a pivot among the rows below, scales it to one and clears the column. -/
def step? (column : Nat) (done rest : List (List Rat)) :
    Option (List (List Rat) × List (List Rat)) :=
  (pivotRow? column rest).map fun (before, pivot, after) =>
    let (pivot, rest) := bringForward before pivot after
    let lead := pivot.getD column 0
    let pivot := pivot.map (· / lead)
    (done.map (clear column pivot) ++ [pivot], rest.map (clear column pivot))

/-- Eliminates `columns` columns, beginning with the one after those done. -/
def eliminate? : Nat → List (List Rat) → List (List Rat) → Option (List (List Rat))
  | 0, done, _ => some done
  | n + 1, done, rest =>
    match step? done.length done rest with
    | none => none
    | some (done, rest) => eliminate? n done rest

def solve? (matrix : List (List Rat)) (rhs : List Rat) : Option (List Rat) :=
  let rows := matrix.zipWith (fun row value => row ++ [value]) rhs
  (eliminate? matrix.length [] rows).map fun rows =>
    rows.map fun row => row.getD matrix.length 0

end ExactAlgebra.Elimination
