import ExactAlgebra.Poly.Basic

/-! Division with remainder, and greatest common divisors by Euclid's rule. -/
namespace ExactAlgebra.Poly

/-- Takes a multiple of one list from another; the second list is at most as long. -/
def subtractMultiple (k : Rat) : List Rat → List Rat → List Rat
  | cs, [] => cs
  | [], _ :: _ => []
  | c :: cs, d :: ds => (c - k * d) :: subtractMultiple k cs ds

/-- Long division, the highest power first: `steps` quotient coefficients for a divisor
`lead * x^m + …` with the given lower coefficients, and what remains. -/
def longDivide (lead : Rat) (lower : List Rat) : Nat → List Rat → List Rat × List Rat
  | 0, remainder => ([], remainder)
  | _ + 1, [] => ([], [])
  | steps + 1, c :: cs =>
    let k := c / lead
    let (quotient, remainder) := longDivide lead lower steps (subtractMultiple k cs lower)
    (k :: quotient, remainder)

/-- Quotient and remainder by a nonzero divisor; zero gives no quotient. -/
def quotRem (p d : Poly) : Poly × Poly :=
  match d.coefficients.reverse with
  | [] => (zero, p)
  | lead :: lower =>
    let steps := p.coefficients.length + 1 - d.coefficients.length
    let (quotient, remainder) := longDivide lead lower steps p.coefficients.reverse
    (ofList quotient.reverse, ofList remainder.reverse)

def divMod (p d : Poly) : Except Fault (Poly × Poly) :=
  if d.isZero then .error .polynomialDivisionByZero else .ok (quotRem p d)

def quot (p d : Poly) : Poly := (quotRem p d).1

def rem (p d : Poly) : Poly := (quotRem p d).2

/-- Euclid's rule; every remainder is shorter than the divisor, so the length of the second
polynomial bounds the steps. -/
def gcdWithin : Nat → Poly → Poly → Poly
  | 0, p, _ => p
  | n + 1, p, q => if q.isZero then p else gcdWithin n q (rem p q)

/-- The greatest common divisor with leading coefficient one. -/
def gcd (p q : Poly) : Poly := (gcdWithin (q.coefficients.length + 1) p q).monic

end ExactAlgebra.Poly
