import ExactAlgebra.Fault

/-! Exact numbers. Coefficients and powers are rational numbers in lowest terms with a positive
denominator; here are the operations that can fail, and the text of a number. -/
namespace ExactAlgebra.Rational

def ratio (numerator denominator : Int) : Rat := Rat.divInt numerator denominator

def isInteger (a : Rat) : Bool := a.den == 1

def sign (a : Rat) : Int := if a.num < 0 then -1 else if a.num = 0 then 0 else 1

def abs (a : Rat) : Rat := if a < 0 then -a else a

def truncate (a : Rat) : Int := Int.tdiv a.num a.den

/-- The quotient; zero divides nothing. -/
def divide (a b : Rat) : Except Fault Rat :=
  if b = 0 then .error .divisionByZero else .ok (a / b)

def invert (a : Rat) : Except Fault Rat :=
  if a = 0 then .error .divisionByZero else .ok a⁻¹

/-- The remainder with the sign of the divisor. -/
def modulo (a b : Rat) : Except Fault Rat :=
  if b = 0 then .error .moduloByZero else .ok (a - b * ((a / b).floor : Rat))

def powerOf (a : Rat) (n : Nat) : Rat :=
  if n = 0 then 1
  else
    let half := powerOf (a * a) (n / 2)
    if n % 2 = 1 then a * half else half

def power (a : Rat) (n : Int) : Except Fault Rat :=
  if n < 0 then do return powerOf (← invert a) n.natAbs else .ok (powerOf a n.natAbs)

/-- An integer, or numerator and denominator around a slash. -/
def text (a : Rat) : String :=
  if a.den = 1 then toString a.num else toString a.num ++ "/" ++ toString a.den

/-- Integers of more than this many digits are not written out. -/
def digitLimit : Nat := 4300

/-- The least number that is too long to be written out. -/
def digitBound : Nat := Nat.pow 10 digitLimit

/-- Both parts of the number are short enough to be written out. -/
def isWritable (a : Rat) : Bool := a.num.natAbs < digitBound && a.den < digitBound

def written (a : Rat) : Except Fault String := if isWritable a then .ok (text a) else .error .unsupported

def bitLength (n : Nat) : Nat := if n = 0 then 0 else Nat.log2 n + 1

end ExactAlgebra.Rational
