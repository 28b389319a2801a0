import ExactAlgebra.Poly.Elimination
import ExactAlgebra.Poly.Factorization

/-! How many steps the algorithms on polynomials take. Each count follows the recursion of its
algorithm; a computation with a deadline looks at the clock once for every step. -/
namespace ExactAlgebra.Poly

def termCount (p : Poly) : Nat := (p.coefficients.filter (· ≠ 0)).length

/-- Every step of a long division finds one coefficient of the quotient that is not zero. -/
def divisionSteps (p d : Poly) : Nat := (quot p d).termCount

/-- The steps of Euclid's rule: one for every division, and those of the division. -/
def gcdStepsWithin : Nat → Poly → Poly → Nat
  | 0, _, _ => 0
  | n + 1, p, q =>
    if q.isZero then 0 else 1 + divisionSteps p q + gcdStepsWithin n q (rem p q)

def gcdSteps (p q : Poly) : Nat := gcdStepsWithin (q.coefficients.length + 1) p q

/-- The steps that split off the part of each multiplicity: one for every multiplicity, and those of
a common divisor and two divisions. -/
def squareFreeStepsFrom : Nat → Poly → Poly → Nat
  | 0, _, _ => 0
  | n + 1, w, c =>
    if w.degree < 1 then 0
    else
      let y := gcd w c
      1 + gcdSteps w c + divisionSteps w y + divisionSteps c y +
        squareFreeStepsFrom n y (quot c y)

def squareFreeSteps (p : Poly) : Nat :=
  if p.degree < 1 then 0
  else
    let f := p.monic
    let c := gcd f f.derivative
    let w := quot f c
    gcdSteps f f.derivative + divisionSteps f c +
      squareFreeStepsFrom (p.coefficients.length + 1) w c

/-- The steps that divide a factor out, with those of the division that fails in the end. -/
def divideOutSteps (factor : Poly) : Nat → Poly → Nat
  | 0, _ => 0
  | n + 1, p =>
    let (quotient, remainder) := quotRem p factor
    divisionSteps p factor + if remainder.isZero then divideOutSteps factor n quotient else 0

def deflateSteps : List Rat → Poly → Nat
  | [], _ => 0
  | root :: roots, p =>
    let factor := linear root.num root.den
    let fuel := p.coefficients.length
    divideOutSteps factor fuel p + deflateSteps roots (divideOut factor fuel p).1

/-- The steps that take a polynomial apart once its rational roots are known. -/
def splitSteps (limit : Int) (p : Poly) : Nat :=
  let primitive := p.primitive.2
  let roots := primitive.rationalRoots limit
  let rest := (deflate roots primitive).2
  deflateSteps roots primitive + rest.squareFreeSteps

/-- So many numbers are tried as divisors in one step. -/
def divisorStride : Nat := 1000

def divisorSteps (n : Nat) : Nat :=
  let root := Nat.sqrt n
  if divisorBound < root then 0 else root / divisorStride

def RootSearch.divisorSteps (search : RootSearch) : Nat :=
  Poly.divisorSteps (search.target.coeff 0).num.natAbs +
    Poly.divisorSteps search.target.leading.num.natAbs

/-- The steps that try the candidates: one for each numerator over each denominator. -/
def RootSearch.candidateSteps (search : RootSearch) (limit : Int) : Nat :=
  match search.numerators, search.denominators with
  | some numerators, some denominators =>
    let pairs := numerators.length * denominators.length
    if limit < pairs then 0 else pairs
  | _, _ => 0

end ExactAlgebra.Poly

namespace ExactAlgebra.Elimination

/-- The columns that are tried: all of them, or those up to the first without a pivot. -/
def columnSteps : Nat → List (List Rat) → List (List Rat) → Nat
  | 0, _, _ => 0
  | n + 1, done, rest =>
    match step? done.length done rest with
    | none => 1
    | some (done, rest) => 1 + columnSteps n done rest

end ExactAlgebra.Elimination
