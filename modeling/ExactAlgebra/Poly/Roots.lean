import ExactAlgebra.Poly.Basic

/-! Rational roots. A root in lowest terms has a numerator that divides the constant coefficient
and a denominator that divides the leading one. -/
namespace ExactAlgebra.Poly

/-- Divisors of `n` up to `d` in rising order, and their cofactors in falling order. -/
def divisorPairs (n : Nat) : Nat → List Nat → List Nat → List Nat × List Nat
  | 0, small, large => (small, large)
  | d + 1, small, large =>
    if n % (d + 1) = 0 then
      divisorPairs n d ((d + 1) :: small)
        (if (d + 1) * (d + 1) = n then large else n / (d + 1) :: large)
    else divisorPairs n d small large

/-- Divisors are looked for up to this bound on the square root. -/
def divisorBound : Nat := 1000000

/-- The divisors in rising order, unless the number is zero or too large to be searched. -/
def divisors? (n : Nat) : Option (List Nat) :=
  let root := Nat.sqrt n
  if n = 0 || divisorBound < root then none
  else
    let (small, large) := divisorPairs n root [] []
    some (small ++ large.reverse)

/-- The quotients of a numerator by a denominator with either sign, in lowest terms. -/
def candidates (numerators denominators : List Nat) : List Rat :=
  denominators.flatMap fun q =>
    numerators.flatMap fun p =>
      if Nat.gcd p q = 1 then [mkRat (p : Int) q, mkRat (-(p : Int)) q] else []

/-- The polynomial without its factor `x^k`. -/
def withoutZeros (p : Poly) : Poly := ofList (p.coefficients.dropWhile (· = 0))

/-- What the search for rational roots looks at: the primitive polynomial without the root zero,
and the divisors of its outer coefficients. -/
structure RootSearch where
  target : Poly
  numerators : Option (List Nat)
  denominators : Option (List Nat)

def rootSearch? (p : Poly) : Option RootSearch :=
  let q := p.withoutZeros
  if q.degree < 1 then none
  else
    let target := q.primitive.2
    some ⟨target, divisors? (target.coeff 0).num.natAbs, divisors? target.leading.num.natAbs⟩

def RootSearch.candidates? (search : RootSearch) (limit : Int) : Option (List Rat) :=
  match search.numerators, search.denominators with
  | some numerators, some denominators =>
    if limit < numerators.length * denominators.length then none
    else some (candidates numerators denominators)
  | _, _ => none

/-- The distinct rational roots in rising order; when there are more than `limit` candidates,
only the root zero. -/
def rationalRoots (limit : Int) (p : Poly) : List Rat :=
  if p.degree < 1 then []
  else
    let zeros : List Rat := if p.coeff 0 = 0 then [0] else []
    match p.rootSearch? with
    | none => zeros
    | some search =>
      match search.candidates? limit with
      | none => zeros
      | some cs =>
        (zeros ++ cs.filter fun c => search.target.evaluate c = 0).mergeSort
          fun a b => decide (a ≤ b)

end ExactAlgebra.Poly
