import ExactAlgebra.Binary64.Significant

/-! The shortest decimal text that reads back as the same binary64 number, and fixed-point text. -/
namespace ExactAlgebra.Binary64

/-- The value of digits `m` whose first has the decimal exponent `e`. -/
def decimalValue (m : Nat) (e : Int) : Rat :=
  let shift := e - ((toString m).length - 1 : Nat)
  if shift < 0 then mkRat m (Nat.pow 10 shift.natAbs) else mkRat (m * Nat.pow 10 shift.natAbs) 1

/-- Digits and exponent, where one digit too many stands for a power of ten. -/
def carried (precision m : Nat) (e : Int) : Nat × Int :=
  if m = Nat.pow 10 precision then (Nat.pow 10 (precision - 1), e + 1) else (m, e)

/-- The decimals of `precision` digits on either side of `n / d`, the nearer one first and of two
equally near ones the even one. -/
def neighbours (n d precision : Nat) : List (Nat × Int) :=
  let e := decimalExponent n d
  let shift := e - (precision - 1 : Nat)
  let (n, d) :=
    if shift < 0 then (n * Nat.pow 10 shift.natAbs, d) else (n, d * Nat.pow 10 shift.natAbs)
  let below := n / d
  let nearest := roundQuotient n d
  if n % d = 0 then [carried precision below e]
  else if nearest = below then [carried precision below e, carried precision (below + 1) e]
  else [carried precision (below + 1) e, carried precision below e]

def readsBack (x : Float) (decimal : Nat × Int) : Bool :=
  match ofRat? (decimalValue decimal.1 decimal.2) with
  | some y => y == x
  | none => false

/-- The fewest digits, at least `precision` and at most `fuel` more, that read back as `x`; of two
decimals with as many digits, the nearer one. Just below a power of two the nearer decimal may miss
`x` where the other one does not. -/
def fewestDigits (x : Float) (a : Rat) : Nat → Nat → Nat × Int
  | 0, precision => leadingDigits a.num.natAbs a.den precision
  | fuel + 1, precision =>
    match (neighbours a.num.natAbs a.den precision).find? (readsBack x) with
    | some decimal => decimal
    | none => fewestDigits x a fuel (precision + 1)

/-- Digits of a positive value, positional from `10^-4` up to `10^16`, with at least one place
after the point. -/
def layoutShortest (m : Nat) (e : Int) : List Char :=
  let digits := dropZeros (toString m).toList
  if e < -4 || 16 ≤ e then joinPoint (digits.take 1) (digits.drop 1) ++ exponentText e
  else if e < 0 then joinPoint ['0'] (List.replicate (e.natAbs - 1) '0' ++ digits)
  else
    let whole := digits.take (e.toNat + 1)
    let fraction := digits.drop (e.toNat + 1)
    joinPoint (whole ++ List.replicate (e.toNat + 1 - whole.length) '0')
      (if fraction.isEmpty then ['0'] else fraction)

/-- The shortest text that reads back as the number. -/
def shortest (x : Float) : String :=
  signed x fun a =>
    if a = 0 then ['0', '.', '0']
    else
      let (m, e) := fewestDigits x.abs a 16 1
      layoutShortest m e

/-- The number with a fixed count of places after the point, a tie going to the even digit. -/
def fixed (ending : Ending) (places : Nat) (x : Float) : String :=
  signed x fun a =>
    let written := min places exactDigits
    let units := roundQuotient (a.num.natAbs * Nat.pow 10 written) a.den
    let digits := (toString units).toList
    let padded := List.replicate (written + 1 - digits.length) '0' ++ digits
    let (whole, fraction) := padded.splitAt (padded.length - written)
    ending.join whole (fraction ++ List.replicate (places - written) '0')

end ExactAlgebra.Binary64
