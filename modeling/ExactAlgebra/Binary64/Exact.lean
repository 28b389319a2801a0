import ExactAlgebra.Rational.Basic

/-! Binary64 numbers and their exact rational values. A finite number is `m · 2^e` with a 53-bit
`m`; a rational goes to the nearest such number, a tie to the even `m`. -/
namespace ExactAlgebra.Binary64
open Rational

/-- The quotient rounded to the nearest integer, a tie to the even one. -/
def roundQuotient (n d : Nat) : Nat :=
  let q := n / d
  let r := n % d
  if 2 * r < d then q else if d < 2 * r then q + 1 else q + q % 2

def toRat? (x : Float) : Option Rat :=
  let bits := x.toBits.toNat
  let exponent := bits / Nat.pow 2 52 % 2048
  let fraction := bits % Nat.pow 2 52
  let magnitude? :=
    if exponent = 2047 then none
    else if exponent = 0 then some (mkRat fraction (Nat.pow 2 1074))
    else
      let m := fraction + Nat.pow 2 52
      if exponent < 1075 then some (mkRat m (Nat.pow 2 (1075 - exponent)))
      else some (mkRat (m * Nat.pow 2 (exponent - 1075)) 1)
  magnitude?.map fun magnitude => if bits < Nat.pow 2 63 then magnitude else -magnitude

/-- `n / d` in units of `2^e`, rounded to the nearest. -/
def unitsOf (n d : Nat) (e : Int) : Nat :=
  if e < 0 then roundQuotient (n * Nat.pow 2 e.natAbs) d
  else roundQuotient n (d * Nat.pow 2 e.natAbs)

/-- The binary exponent of `n / d`: the greatest `k` with `2^k ≤ n / d`. -/
def binaryExponent (n d : Nat) : Int :=
  let k : Int := bitLength n - bitLength d
  let reached := if k < 0 then d ≤ n * Nat.pow 2 k.natAbs else d * Nat.pow 2 k.natAbs ≤ n
  if reached then k else k - 1

/-- The bits of `m · 2^e`, for `m ≤ 2^53` in the units that binary64 has at that size. -/
def encode (negative : Bool) (m : Nat) (e : Int) : Option Float :=
  let (m, e) := if m = Nat.pow 2 53 then (Nat.pow 2 52, e + 1) else (m, e)
  let signBit := if negative then Nat.pow 2 63 else 0
  if m < Nat.pow 2 52 then some (Float.ofBits (UInt64.ofNat (signBit + m)))
  else
    let biased := e + 1075
    if 2047 ≤ biased then none
    else some (Float.ofBits (UInt64.ofNat
      (signBit + biased.toNat * Nat.pow 2 52 + (m - Nat.pow 2 52))))

/-- The nearest binary64 number, unless the value is too large for any. -/
def ofRat? (a : Rat) : Option Float :=
  let n := a.num.natAbs
  if n = 0 then some 0.0 else
    let least : Int := -1074
    let e := binaryExponent n a.den - 52
    let e := if e < least then least else e
    encode (a.num < 0) (unitsOf n a.den e) e

/-- The nearest binary64 number; a value too large for any is refused. -/
def ofRat (a : Rat) : Except Fault Float :=
  match ofRat? a with
  | some x => .ok x
  | none => .error .unsupported

def ofUnits (m : Nat) (e : Int) : Rat :=
  if e < 0 then mkRat m (Nat.pow 2 e.natAbs) else mkRat (m * Nat.pow 2 e.natAbs) 1

/-- The value rounded to 53 binary digits, fewer where they would lie below the least unit. -/
def nearest (a : Rat) : Rat :=
  if a = 0 then 0 else
    let n := a.num.natAbs
    let least : Int := -1074
    let e := binaryExponent n a.den - 52
    let e := if e < least then least else e
    let magnitude := ofUnits (unitsOf n a.den e) e
    if a < 0 then -magnitude else magnitude

def toRat (x : Float) : Except Fault Rat :=
  match toRat? x with
  | some a => .ok a
  | none => .error (.nonFinite (if x.isNaN then "nan" else if x < 0 then "-inf" else "inf"))

end ExactAlgebra.Binary64
