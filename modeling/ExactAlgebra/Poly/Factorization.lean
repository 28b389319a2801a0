import ExactAlgebra.Poly.Division
import ExactAlgebra.Poly.Roots

/-! Square-free parts, and factors over the rationals: one linear factor for each rational root,
and the square-free parts of what is left. -/
namespace ExactAlgebra.Poly

/-- A factor and its multiplicity. -/
abbrev Factors := List (Poly × Nat)

/-- Splits off the part of each multiplicity in turn; the degree bounds the steps. -/
def squareFreeFrom : Nat → (multiplicity : Nat) → Poly → Poly → Factors
  | 0, _, _, _ => []
  | n + 1, multiplicity, w, c =>
    if w.degree < 1 then []
    else
      let y := gcd w c
      let z := quot w y
      let rest := squareFreeFrom n (multiplicity + 1) y (quot c y)
      if 0 < z.degree then (z.monic, multiplicity) :: rest else rest

/-- The square-free parts of the monic polynomial, by rising multiplicity. -/
def squareFree (p : Poly) : Factors :=
  if p.degree < 1 then []
  else
    let f := p.monic
    let c := gcd f f.derivative
    squareFreeFrom (p.coefficients.length + 1) 1 (quot f c) c

/-- Divides a factor out as often as it goes; the length bounds the steps. -/
def divideOut (factor : Poly) : Nat → Poly → Poly × Nat
  | 0, p => (p, 0)
  | n + 1, p =>
    let (quotient, remainder) := quotRem p factor
    if remainder.isZero then
      let (rest, multiplicity) := divideOut factor n quotient
      (rest, multiplicity + 1)
    else (p, 0)

def deflate : List Rat → Poly → Factors × Poly
  | [], p => ([], p)
  | root :: roots, p =>
    let factor := linear root.num root.den
    let (rest, multiplicity) := divideOut factor p.coefficients.length p
    let (factors, rest) := deflate roots rest
    (if multiplicity = 0 then factors else (factor, multiplicity) :: factors, rest)

/-- The product of factors to their multiplicities. -/
def expandFactors (factors : Factors) : Poly :=
  factors.foldl (fun p (q, n) => mul p (pow q n)) (const 1)

/-- A rational factor and primitive factors with multiplicities whose product is the polynomial. -/
def factorization (limit : Int) (p : Poly) : Rat × Factors :=
  let primitive := p.primitive.2
  let (linears, rest) := deflate (primitive.rationalRoots limit) primitive
  let others :=
    if 0 < rest.degree then rest.squareFree.map fun (q, n) => (q.primitive.2, n) else []
  let factors := linears ++ others
  (p.leading / (expandFactors factors).leading, factors)

end ExactAlgebra.Poly
