import ExactAlgebra.Algebra.Fraction

/-! Factoring over the rationals: symbolic factors common to all terms first, then the factors of
sums in one unknown. -/
namespace ExactAlgebra.Expr
open Engine

/-- The factors of a term that can be taken out, by base key. -/
def removable (term : Expr) : List (String × Expr) :=
  (term.factors.filter fun f => !f.isExponential && 0 < f.power).map fun f => (f.baseKey, f)

/-- The factors that both lists have, at the lower power. -/
def sharedFactors (shared current : List (String × Expr)) : List (String × Expr) :=
  shared.filterMap fun (key, f) =>
    (current.lookup key).map fun g => (key, if f.power ≤ g.power then f else g)

def commonFactor (terms : List Expr) : Except Fault Expr :=
  match terms with
  | [] => .ok one
  | t :: ts => mulAll one ((ts.foldl (fun shared t => sharedFactors shared (removable t))
      (removable t)).map (·.2))

def ofPolyFactors (x : String) (c : Rat) (factors : Poly.Factors) : Except Fault Expr :=
  factors.foldlM (fun result (p, n) => do mul result (← (← p.toExpr x).powRat n)) (number c)

/-- A sum in one unknown as the product of its factors; any other sum stays as it is. -/
def factorUnivariate (e : Expr) : Engine Expr := do
  match e.freeNames with
  | [x] =>
    match ← e.poly? x with
    | none => return e
    | some p =>
      if p.degree < 2 then return e
      else
        let (c, factors) ← p.findFactors
        match factors with
        | [(_, 1)] => return e
        | factors => ofPolyFactors x c factors
  | _ => return e

/-- Factors a tree; taking out a common factor leaves smaller powers, and the size of the tree
bounds the steps. -/
def factorWithin : Nat → Expr → Engine Expr
  | 0, _ => throw .unsupported
  | n + 1, e => do
    poll
    match e with
    | product c factors =>
      factors.foldlM (fun result f => do mul result (← factorWithin n f)) (number c)
    | sum c terms p =>
      if p ≠ 1 then
        let powered ← (← factorWithin n (sum 1 terms 1)).powRat p
        return powered.scale c
      else
        let e := sum c terms p
        let common ← commonFactor e.spreadTerms
        if common.isOne then factorUnivariate e
        else
          let rest ← e.spreadTerms.foldlM (fun rest t => do add rest (← div t common)) zero
          mul common (← factorWithin n rest)
    | e => if e.isCopyable then return e else throw .unsupported

def factorTree (e : Expr) : Engine Expr := factorWithin (2 * e.size + 8) e

def factor (e : Expr) : Engine Expr := guarded e.factorTree

end ExactAlgebra.Expr
