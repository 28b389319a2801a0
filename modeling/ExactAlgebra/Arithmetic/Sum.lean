import ExactAlgebra.Expr.Layout

/-! Addition. Terms are alike when they have the same key; alike terms are merged, and the sum
keeps the rational content of its terms in its own coefficient, with the sign of the leading
term. -/
namespace ExactAlgebra.Expr

/-- A term with its rank, so that key and order are worked out once. -/
abbrev RankedTerm := TermRank × Expr

def rankTerm (t : Expr) : RankedTerm := (t.termRank t.face, t)

/-- The terms of a plain sum in stored order, its coefficient spread over them. -/
def summands : Expr → List Expr
  | sum c terms p =>
    if p = 1 then terms.map fun t => t.withCoeff (t.coeff * c) else [sum c terms p]
  | e => [e]

/-- Adds a term to those collected so far: to the alike one if there is one, else at the end. -/
def insertTerm : List RankedTerm → RankedTerm → List RankedTerm
  | [], new => [new]
  | (rank, t) :: rest, new =>
    if rank.key == new.1.key then (rank, t.withCoeff (t.coeff + new.2.coeff)) :: rest
    else (rank, t) :: insertTerm rest new

/-- The greatest rational of which every given number is an integer multiple. -/
def content (coeffs : List Rat) : Rat :=
  let divisor : Nat := coeffs.foldl (fun g c => Nat.gcd g c.num.natAbs) 0
  mkRat divisor (coeffs.foldl (fun l c => Nat.lcm l c.den) 1)

def leading : RankedTerm → List RankedTerm → RankedTerm
  | best, [] => best
  | best, t :: rest => leading (if TermRank.le best.1 t.1 then best else t) rest

/-- The sum of terms of which no two are alike. -/
def ofTerms (terms : List RankedTerm) : Expr :=
  match terms.filter (fun t => t.2.coeff ≠ 0) with
  | [] => zero
  | [t] => t.2
  | t :: rest =>
    let kept := (t :: rest).map (·.2)
    let magnitude := content (kept.map coeff)
    let c := if (leading t rest).2.coeff < 0 then -magnitude else magnitude
    sum c (kept.map fun t => t.withCoeff (t.coeff / c)) 1

def mergeTerms (terms : List RankedTerm) : Expr := ofTerms (terms.foldl insertTerm [])

/-- The sum of two expressions, like terms merged; the keys of the terms have to be written out for
that, unless both are numbers or one is zero. -/
def add (a b : Expr) : Except Fault Expr :=
  if a.isZero then .ok b
  else if b.isZero then .ok a
  else
    match a, b with
    | number x, number y => .ok (number (x + y))
    | a, b =>
      let terms := (a.summands ++ b.summands).map rankTerm
      if terms.all fun t => t.1.hasKey then .ok (mergeTerms terms) else .error .unsupported

def addAll (first : Expr) (terms : List Expr) : Except Fault Expr := terms.foldlM add first

def neg (a : Expr) : Expr := a.withCoeff (-a.coeff)

def sub (a b : Expr) : Except Fault Expr := add a (neg b)

end ExactAlgebra.Expr
