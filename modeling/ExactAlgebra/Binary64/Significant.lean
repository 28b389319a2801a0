import ExactAlgebra.Binary64.Exact

/-! Binary64 text to a number of significant digits. The digits are those of the exact value,
rounded to nearest with ties to even; zeros at the end are dropped. Values from `10^-4` up to the
precision are written positionally, all others with a power of ten of at least two digits. -/
namespace ExactAlgebra.Binary64

/-- The decimal exponent of `n / d`: the greatest `k` with `10^k ≤ n / d`. -/
def decimalExponent (n d : Nat) : Int :=
  let k : Int := ((toString n).length : Int) - (toString d).length
  let reached := if k < 0 then d ≤ n * Nat.pow 10 k.natAbs else d * Nat.pow 10 k.natAbs ≤ n
  if reached then k else k - 1

/-- The first `precision` digits of `n / d`, rounded, and the decimal exponent of the first. -/
def leadingDigits (n d precision : Nat) : Nat × Int :=
  let e := decimalExponent n d
  let shift := e - (precision - 1 : Nat)
  let m :=
    if shift < 0 then roundQuotient (n * Nat.pow 10 shift.natAbs) d
    else roundQuotient n (d * Nat.pow 10 shift.natAbs)
  if m = Nat.pow 10 precision then (Nat.pow 10 (precision - 1), e + 1) else (m, e)

def dropZeros (digits : List Char) : List Char := (digits.reverse.dropWhile (· == '0')).reverse

def joinPoint (whole fraction : List Char) : List Char :=
  if fraction.isEmpty then whole else whole ++ '.' :: fraction

inductive Ending
  /-- No zeros at the end, and no point without digits after it. -/
  | trimmed
  /-- All digits, and no point without digits after it. -/
  | plain
  /-- All digits, and always a point. -/
  | full
deriving DecidableEq, Repr

def Ending.join (ending : Ending) (whole fraction : List Char) : List Char :=
  match ending with
  | trimmed => joinPoint whole (dropZeros fraction)
  | plain => joinPoint whole fraction
  | full => whole ++ '.' :: fraction

/-- The power of ten with its sign and at least two digits. -/
def exponentText (e : Int) : List Char :=
  let digits := (toString e.natAbs).toList
  'e' :: (if e < 0 then '-' else '+') :: (List.replicate (2 - digits.length) '0' ++ digits)

def layoutDigits (ending : Ending) (precision : Nat) (digits : List Char) (e : Int) : List Char :=
  if e < -4 || (precision : Int) ≤ e then
    ending.join (digits.take 1) (digits.drop 1) ++ exponentText e
  else if e < 0 then ending.join ['0'] (List.replicate (e.natAbs - 1) '0' ++ digits)
  else ending.join (digits.take (e.toNat + 1)) (digits.drop (e.toNat + 1))

/-- A number by the layout of its absolute value, with its sign; the sign of zero is kept, and what
is not finite has a name. -/
def signed (x : Float) (layout : Rat → List Char) : String :=
  let negative := decide (Nat.pow 2 63 ≤ x.toBits.toNat)
  match toRat? x with
  | none => if x.isNaN then "nan" else if negative then "-inf" else "inf"
  | some a =>
    let body := layout (Rational.abs a)
    String.ofList (if negative then '-' :: body else body)

/-- No binary64 number has a digit other than zero past this many significant digits, or past this
many places after the point. -/
def exactDigits : Nat := 1100

/-- The first `precision` digits of a value and the exponent of the first; zero has zeros only. -/
def digitsOf (a : Rat) (precision : Nat) : List Char × Int :=
  if a = 0 then (List.replicate precision '0', 0)
  else
    let (m, e) := leadingDigits a.num.natAbs a.den (min precision exactDigits)
    ((toString m).toList ++ List.replicate (precision - exactDigits) '0', e)

def significantWith (ending : Ending) (precision : Nat) (x : Float) : String :=
  let precision := if precision = 0 then 1 else precision
  signed x fun a =>
    let (digits, e) := digitsOf a precision
    layoutDigits ending precision digits e

def significant (precision : Nat) (x : Float) : String := significantWith .trimmed precision x

/-- The value with a power of ten, one digit before the point and `places` after it. -/
def scientific (ending : Ending) (places : Nat) (x : Float) : String :=
  signed x fun a =>
    let (digits, e) := digitsOf a (places + 1)
    ending.join (digits.take 1) (digits.drop 1) ++ exponentText e

end ExactAlgebra.Binary64
