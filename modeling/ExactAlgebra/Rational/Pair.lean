import ExactAlgebra.Rational.Basic

/-! Numerator and denominator as they are kept. Sums, products and quotients are brought to lowest
terms; negation, reciprocals, absolute values and powers take the parts over as they are, and rely on
it that these are in lowest terms already. -/
namespace ExactAlgebra.Rational

/-- A numerator over a denominator; nothing is assumed of them. -/
structure Pair where
  num : Int
  den : Int
deriving DecidableEq, Repr

namespace Pair

def of (a : Rat) : Pair := ⟨a.num, a.den⟩

def value (a : Pair) : Rat := a.num / a.den

def one : Pair := ⟨1, 1⟩

def make (n d : Int) : Except Fault Pair :=
  if d = 0 then .error .divisionByZero
  else
    let (n, d) := if d < 0 then (-n, -d) else (n, d)
    let g : Int := Int.gcd n d
    .ok (if 1 < g then ⟨n.fdiv g, d.fdiv g⟩ else ⟨n, d⟩)

/-- What a number can be made of. -/
inductive Part
  | whole (n : Int)
  | number (a : Pair)

/-- The part is the number one, so that there is nothing to divide by. -/
def Part.isOne : Part → Bool
  | .whole n => n == 1
  | .number a => a == one

def Part.remade : Part → Except Fault Pair
  | .whole n => make n 1
  | .number a => make a.num a.den

def build : Part → Part → Except Fault Pair
  | .whole n, .whole d => make n d
  | .whole n, .number b => make (n * b.den) b.num
  | .number a, d =>
    if d.isOne then make a.num a.den
    else do
      let b ← d.remade
      make (a.num * b.den) (a.den * b.num)

/-- The sum, over the product of the denominators. -/
def add (a b : Pair) : Except Fault Pair := make (a.num * b.den + b.num * a.den) (a.den * b.den)

def sub (a b : Pair) : Except Fault Pair := make (a.num * b.den - b.num * a.den) (a.den * b.den)

def mul (a b : Pair) : Except Fault Pair := make (a.num * b.num) (a.den * b.den)

def div (a b : Pair) : Except Fault Pair :=
  if b.num = 0 then .error .divisionByZero else make (a.num * b.den) (a.den * b.num)

/-- The remainder with the sign of the divisor. -/
def mod (a b : Pair) : Except Fault Pair :=
  if b.num = 0 then .error .moduloByZero
  else do
    let multiple ← b.mul (← make ((a.num * b.den).fdiv (a.den * b.num)) 1)
    a.sub multiple

def neg (a : Pair) : Pair := ⟨-a.num, a.den⟩

def abs (a : Pair) : Pair := ⟨a.num.natAbs, a.den⟩

/-- The reciprocal, with the sign moved to the numerator. -/
def inv (a : Pair) : Except Fault Pair :=
  if a.num = 0 then .error .divisionByZero
  else .ok (if a.num < 0 then ⟨-a.den, -a.num⟩ else ⟨a.den, a.num⟩)

/-- Numerators and denominators multiplied, nothing cancelled. -/
def times (a b : Pair) : Pair := ⟨a.num * b.num, a.den * b.den⟩

/-- `result` times the `n`-th power of `base`, by repeated squaring. -/
def raise (result base : Pair) (n : Nat) : Pair :=
  if n = 0 then result
  else raise (if n % 2 = 1 then result.times base else result) (base.times base) (n / 2)

/-- An integer power; a negative one is a power of the reciprocal. -/
def pow (a : Pair) (n : Int) : Except Fault Pair :=
  if n < 0 then do return raise one (← a.inv) n.natAbs else .ok (raise one a n.natAbs)

/-- Minus one, zero or one, by the order of the two; denominators are multiplied across. -/
def compare (a b : Pair) : Int := (a.num * b.den - b.num * a.den).sign

def same (a b : Pair) : Bool := a.num == b.num && a.den == b.den

end Pair
end ExactAlgebra.Rational
