import ExactAlgebra.Rational.Approximation

/-! Decimal text to a number of significant digits, by exact long division. The integer part is
never cut, a half goes away from zero, and trailing zeros are dropped. A precision that is a
binary64 number is followed only where it leaves no digits after the point. -/
namespace ExactAlgebra.Rational

/-- The zeros between the point and the first digit of `n / d`, for `0 < n < d`; the fuel bounds
how many are looked for. -/
def leadingZeros (n d : Nat) : Nat → Nat
  | 0 => 0
  | fuel + 1 => if n * 10 < d then leadingZeros (n * 10) d fuel + 1 else 0

/-- How many digits after the point are kept; negative when a value below one is cut before its
first digit. -/
def fractionDigits (a : Rat) (precision : Int) : Int :=
  let n := a.num.natAbs
  let whole := n / a.den
  if whole = 0 then leadingZeros n a.den (bitLength a.den) + precision
  else max (precision - (toString whole).length) 0

/-- The number of units in the last kept place, a half rounded up. -/
def scaledUp (n d places : Nat) : Nat := (2 * n * Nat.pow 10 places + d) / (2 * d)

def pointAfter (count : Nat) (digits : List Char) : String :=
  let whole := digits.take count
  let fraction := ((digits.drop count).reverse.dropWhile (· == '0')).reverse
  String.ofList (if fraction.isEmpty then whole else whole ++ '.' :: fraction)

/-- Puts the point before the last `places` digits and drops zeros at the end. -/
def placePoint (units places : Nat) : String :=
  let digits := (toString units).toList
  let padded := List.replicate (places + 1 - digits.length) '0' ++ digits
  pointAfter (padded.length - places) padded

/-- The number to `precision` significant digits. Cut before its first digit, a value is written as
`0.0` divided anew after as many characters as places are missing. -/
def decimal (a : Rat) (precision : Int) : String :=
  if a = 0 then "0" else
    let text :=
      match fractionDigits a precision with
      | .ofNat places => placePoint (scaledUp a.num.natAbs a.den places) places
      | .negSucc missing => pointAfter (missing + 1) ['0', '.', '0']
    if a.num < 0 then "-" ++ text else text

/-- The digits that have to be written out for a precision are not too many. At least as many as the
precision says have to be written. -/
def isPrintable (a : Rat) (precision : Int) : Bool :=
  let n := a.num.natAbs
  a = 0 || precision ≤ digitLimit && n / a.den < digitBound &&
    match fractionDigits a precision with
    | .ofNat places => scaledUp n a.den places < digitBound
    | .negSucc _ => (Binary64.ofRat? (2 * a.den : Int)).isSome

def decimalTo (a : Rat) (precision : Int) : Except Fault String :=
  if isPrintable a precision then .ok (decimal a precision) else .error .unsupported

/-- The nearest integer, a half away from zero, as a binary64 number shows it. -/
def wholeReal (a : Rat) : Except Fault String := do
  let top ← Binary64.ofRat (2 * a.num.natAbs : Int)
  let bottom ← Binary64.ofRat (2 * a.den : Int)
  let middle ← Binary64.ofRat (a.den : Int)
  let text := Binary64.shortest (floorQuotient (top + middle) bottom)
  return if a.num < 0 then "-" ++ text else text

def decimalText (a : Rat) (precision : Datum) : Except Fault String := do
  if a = 0 then return "0"
  match precision with
  | .real p =>
    match Binary64.toRat? p with
    | none => if p < 0 then decimalTo a 0 else throw .unsupported
    | some p =>
      let n := a.num.natAbs
      let whole := n / a.den
      if !isWritable whole then throw .unsupported
      let places :=
        if whole = 0 then Binary64.nearest (leadingZeros n a.den (bitLength a.den) + p)
        else Binary64.nearest (p - (toString whole).length)
      if places = 0 then wholeReal a
      else if whole ≠ 0 && places < 0 then decimalTo a 0
      else throw .unsupported
  | precision => decimalTo a (← precision.integer)

end ExactAlgebra.Rational
