import ExactAlgebra.Rational.Basic
import ExactAlgebra.Text.Digit
import ExactAlgebra.Text.Edit
import ExactAlgebra.Text.Integer
import ExactAlgebra.Text.Quoted

/-! Number literals: a sign, digits with an optional point, an optional power of ten, and
quotients of such literals. Digits of any script are read. -/
namespace ExactAlgebra.Rational
open Text

def maxLiteralDigits : Nat := 3000

/-- At most this many significant digits in the power of ten. -/
def maxExponentDigits : Nat := 3

structure Decimal where
  negative : Bool
  whole : List Char
  fraction : List Char
  /-- Sign and digits of the power of ten. -/
  exponent : Option (List Char × List Char)

def takeSign : List Char → List Char × List Char
  | '+' :: s => (['+'], s)
  | '-' :: s => (['-'], s)
  | s => ([], s)

/-- The power of ten at the front: a mark, an optional sign and at least one digit. -/
def takeExponent? : List Char → Option ((List Char × List Char) × List Char)
  | [] => none
  | c :: s =>
    if c == 'e' || c == 'E' then
      let (sign, s) := takeSign s
      let digits := s.takeWhile isDecimal
      if digits.isEmpty then none else some ((sign, digits), s.dropWhile isDecimal)
    else none

/-- The digits behind a point at the front, if a point stands there. -/
def takeFraction : List Char → List Char × List Char
  | '.' :: s => (s.takeWhile isDecimal, s.dropWhile isDecimal)
  | s => ([], s)

def Decimal.read? (s : List Char) : Option Decimal :=
  let (sign, s) := takeSign s
  let whole := s.takeWhile isDecimal
  let s := s.dropWhile isDecimal
  let (fraction, s) := takeFraction s
  let (exponent, s) :=
    match takeExponent? s with
    | some (exponent, s) => (some exponent, s)
    | none => (none, s)
  if s.isEmpty && !(whole.isEmpty && fraction.isEmpty) then
    some { negative := sign == ['-'], whole, fraction, exponent }
  else none

def Decimal.inRange (d : Decimal) : Bool :=
  d.whole.length + d.fraction.length ≤ maxLiteralDigits &&
    match d.exponent with
    | none => true
    | some (_, digits) => (digits.dropWhile (· == '0')).length ≤ maxExponentDigits

/-- The power of ten can be read as an integer. Zeros at its front count as digits here. -/
def Decimal.isReadable (d : Decimal) : Bool :=
  match d.exponent with
  | none => true
  | some (_, digits) => digits.length ≤ maxIntegerDigits

def Decimal.value (d : Decimal) : Rat :=
  let magnitude := mkRat (naturalOf (d.whole ++ d.fraction)) (Nat.pow 10 d.fraction.length)
  let scaled :=
    match d.exponent with
    | none => magnitude
    | some (sign, digits) =>
      let scale := mkRat (Nat.pow 10 (naturalOf digits)) 1
      if sign == ['-'] then magnitude / scale else magnitude * scale
  if d.negative then -scaled else scaled

def ofDecimal (s : List Char) : Except Fault Rat :=
  let s := strip s
  match Decimal.read? s with
  | none => .error (.invalidLiteral (quoted (String.ofList s)))
  | some d =>
    if !d.inRange then .error (.literalOutOfRange (quoted (String.ofList (s.take 20))))
    else if d.isReadable then .ok d.value
    else .error .unsupported

/-- Reads a chain of quotients; each slash divides by all that follows. -/
def ofQuotient : List (List Char) → Except Fault Rat
  | [] => ofDecimal []
  | [s] => ofDecimal s
  | s :: rest => do
    let a ← ofDecimal s
    let b ← ofQuotient rest
    divide a b

def ofText (text : String) : Except Fault Rat :=
  ofQuotient (splitAtChar '/' (strip text.toList))

end ExactAlgebra.Rational
