import ExactAlgebra.Datum.Basic
import ExactAlgebra.Rational.Literal
import ExactAlgebra.Text.Integer

/-! Numbers given as data: an integer, a binary64 number at its exact value, a literal, or a list of
two such, which is their quotient. -/
namespace ExactAlgebra.Rational

/-- One of the two parts of a quotient, which may be a quotient itself, already worked out. -/
inductive Part
  | quotient (value : Rat)
  | plain (datum : Datum)

def ofPlain : Datum → Except Fault Rat
  | .whole n => .ok n
  | .real x => Binary64.toRat x
  | .text s => ofText s
  | _ => .error .unsupported

namespace Part

def value : Part → Except Fault Rat
  | quotient a => .ok a
  | plain datum => ofPlain datum

/-- A part cut to an integer; text has to be that of an integer. -/
def integer : Part → Except Fault Int
  | quotient a => .ok (truncate a)
  | plain (.text s) => match Text.integer? s with
    | some n => .ok n
    | none => .error .unsupported
  | plain datum => datum.truncated

def isOne : Part → Bool
  | quotient a => a = 1
  | plain (.whole n) => n = 1
  | plain (.real x) => x == 1
  | plain (.flag b) => b
  | plain _ => false

/-- The quotient of two parts. Below an integer or a binary64 number a plain part is cut to an
integer; below anything else it keeps its exact value. -/
def dividedBy (numerator denominator : Part) : Except Fault Rat := do
  match numerator, denominator with
  | plain (.whole n), quotient b => divide n b
  | plain (.whole n), denominator => divide n (← denominator.integer)
  | plain (.real x), denominator =>
    let a ← Binary64.toRat x
    if denominator.isOne then return a else divide a (← denominator.integer)
  | numerator, denominator =>
    let a ← numerator.value
    if denominator.isOne then return a else divide a (← denominator.value)

end Part

/-- The exact value of a number that is given as data. Quotients inside a quotient are worked out
before its other parts are read. -/
def ofDatum : Datum → Except Fault Rat
  | .list [a, b] => do
    let numerator ← match a with
      | .list items => do pure (Part.quotient (← ofDatum (.list items)))
      | datum => pure (Part.plain datum)
    let denominator ← match b with
      | .list items => do pure (Part.quotient (← ofDatum (.list items)))
      | datum => pure (Part.plain datum)
    numerator.dividedBy denominator
  | datum => ofPlain datum

end ExactAlgebra.Rational
