import ExactAlgebra.Expr.Basic

/-! Exact powers of numbers. A root that is not rational is kept as a coefficient times the root
of an integer from which powers of small primes were drawn out; roots of negative numbers use the
imaginary unit or a power of minus one. -/
namespace ExactAlgebra

def maxIntegerBits : Nat := 14000

/-- The descent of Newton's iteration for the root of an integer, from above. -/
def descendRoot (value degree guess : Nat) : Nat :=
  let better := ((degree - 1) * guess + value / Nat.pow guess (degree - 1)) / degree
  if better < guess then descendRoot value degree better else guess
termination_by guess

def integerRoot? (value degree : Nat) : Option Nat :=
  if value < 2 then some value else
    let start := Nat.pow 2 ((Rational.bitLength value + degree - 1) / degree)
    let root := descendRoot value degree start
    if Nat.pow root degree = value then some root else none

def smallPrimes : List Nat :=
  (List.range 1000).filter fun p =>
    2 ≤ p && (List.range (p - 2)).all fun q => p % (q + 2) ≠ 0

/-- Divides `inside` by `target` as often as it goes, moving `prime` outside each time. -/
def drawOut (prime target outside inside : Nat) : Nat × Nat :=
  if _divides : 2 ≤ target ∧ 0 < inside ∧ inside % target = 0 then
    drawOut prime target (outside * prime) (inside / target)
  else (outside, inside)
termination_by inside
decreasing_by exact Nat.div_lt_self (by omega) (by omega)

/-- Draws out powers of primes, as long as such a power can divide what is left. -/
def drawOutPrimes (degree : Nat) : List Nat → Nat → Nat → Nat × Nat
  | [], outside, inside => (outside, inside)
  | prime :: primes, outside, inside =>
    let target := Nat.pow prime degree
    if inside < target then (outside, inside)
    else
      let (outside, inside) := drawOut prime target outside inside
      drawOutPrimes degree primes outside inside

/-- `(o, i)` with `value = o ^ degree * i`, where `i` is free of such powers of small primes. -/
def splitPower (value degree : Nat) : Nat × Nat :=
  match integerRoot? value degree with
  | some root => (root, 1)
  | none => drawOutPrimes degree smallPrimes 1 value

namespace Expr

def powerOfI (n : Int) : Expr :=
  match (n % 4).toNat with
  | 0 => one
  | 1 => bare "i"
  | 2 => number (-1)
  | _ => symbol (-1) "i" 1

/-- A power of a positive number with a power that is not an integer. -/
def rootOfPositive (value exponent : Rat) : Except Fault Expr :=
  let whole := exponent.floor
  let part := exponent - whole
  let degree := part.den
  let k := part.num.natAbs
  let n := value.num.natAbs
  let bits := Rational.bitLength n
  let denBits := Rational.bitLength value.den
  let size := if bits < denBits then denBits else bits
  if maxIntegerBits < whole.natAbs * size + k * (bits + (degree - 1) * (denBits - 1)) then
    .error (.powerTooLarge maxIntegerBits)
  else do
    let power ← Rational.power value whole
    let radicand := n * Nat.pow value.den (degree - 1)
    let (outside, inside) := splitPower (Nat.pow radicand k) degree
    let c := power / mkRat (Nat.pow value.den k) 1 * outside
    return if inside = 1 then number c else symbol c (toString inside) (mkRat 1 degree)

/-- The product of a number or a root of a positive integer with a symbol of another base. -/
def timesSymbol (m u : Expr) : Expr :=
  match m with
  | number c => u.scale c
  | m => product (m.coeff * u.coeff) [m.unit, u.unit]

def powNumber (value exponent : Rat) : Except Fault Expr :=
  if Rational.isInteger exponent then
    if value = 0 && exponent < 0 then .error .divisionByZero
    else
      let bits := Rational.bitLength value.num.natAbs
      let denBits := Rational.bitLength value.den
      let size := if bits < denBits then denBits else bits
      if 1 < size && maxIntegerBits < size * exponent.num.natAbs then
        .error (.powerTooLarge maxIntegerBits)
      else do return number (← Rational.power value exponent.num)
  else if value = 0 then .ok zero
  else if value = 1 then .ok one
  else if 0 < value then rootOfPositive value exponent
  else do
    let magnitude ← rootOfPositive (-value) exponent
    if exponent.den % 2 = 1 then
      return if exponent.num % 2 = 0 then magnitude else magnitude.withCoeff (-magnitude.coeff)
    else if exponent.den = 2 then return timesSymbol magnitude (powerOfI exponent.num)
    else
      return timesSymbol magnitude (symbol 1 "-1" (exponent - 2 * ((exponent / 2).floor : Rat)))

end Expr
end ExactAlgebra
