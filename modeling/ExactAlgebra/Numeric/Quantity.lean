import ExactAlgebra.Binary64.Exact
import ExactAlgebra.Builtin.Spec
import ExactAlgebra.Numeric.Special

/-! Numeric values and what the functions do with them. A real or complex number refuses a division
by zero, an argument outside the domain and a result outside the range. Samples and columns stand
for measured data: their operations go element by element, never fail, and give infinities and NaN
instead. -/
namespace ExactAlgebra.Numeric

structure Point where
  re : Float
  im : Float

/-- A routine from outside for the complex roots of a polynomial, the highest coefficient first.
Nothing is assumed of what it finds. -/
abbrev RootFinder := List Float → List Point

/-- What a formula evaluates to: a real or complex number, or data, one sample or a column of them.
-/
inductive Quantity
  | real (x : Float)
  | complex (z : Point)
  | sample (x : Float)
  | column (xs : List Float)
deriving Inhabited

namespace Point

def add (a b : Point) : Point := ⟨a.re + b.re, a.im + b.im⟩

def mul (a b : Point) : Point := ⟨a.re * b.re - a.im * b.im, a.re * b.im + a.im * b.re⟩

def modulus (a : Point) : Float :=
  let x := a.re.abs
  let y := a.im.abs
  let (big, small) := if x < y then (y, x) else (x, y)
  if big == 0 || big.isInf then big else
    let r := small / big
    big * Float.sqrt (1 + r * r)

def argument (a : Point) : Float := Float.atan2 a.im a.re

def isOrigin (a : Point) : Bool := a.re == 0 && a.im == 0

def isFinite (a : Point) : Bool := a.re.isFinite && a.im.isFinite

/-- Refuses a result that left the range. -/
def inRange (a : Point) : Except Fault Point :=
  if a.re.isInf || a.im.isInf then .error .numericFailure else .ok a

/-- The quotient, scaled by the larger part of the divisor. -/
def div (a b : Point) : Except Fault Point :=
  if b.isOrigin then .error .numericDivisionByZero
  else if b.im.abs ≤ b.re.abs then
    let r := b.im / b.re
    let d := b.re + b.im * r
    .ok ⟨(a.re + a.im * r) / d, (a.im - a.re * r) / d⟩
  else
    let r := b.re / b.im
    let d := b.re * r + b.im
    .ok ⟨(a.re * r + a.im) / d, (a.im * r - a.re) / d⟩

def natPow (a : Point) : Nat → Point
  | 0 => ⟨1, 0⟩
  | n + 1 => mul (natPow a n) a

def polarPow (a b : Point) : Except Fault Point :=
  if a.isOrigin then
    if b.im != 0 || b.re < 0 then .error .numericDivisionByZero else .ok ⟨0, 0⟩
  else
    let size := a.modulus
    let length := Float.pow size b.re
    let phase := a.argument * b.re
    let (length, phase) :=
      if b.im == 0 then (length, phase)
      else (length * Float.exp (-a.argument * b.im), phase + b.im * Float.log size)
    inRange ⟨length * Float.cos phase, length * Float.sin phase⟩

/-- A power; small integer powers are multiplied out. -/
def pow (a b : Point) : Except Fault Point := do
  if b.im == 0 && b.re == b.re.floor && b.re.abs ≤ 100 then
    let n := b.re.abs.toUInt64.toNat
    if 0 < b.re then inRange (a.natPow n) else inRange (← div ⟨1, 0⟩ (a.natPow n))
  else polarPow a b

def log (a : Point) : Except Fault Point :=
  if a.isOrigin then .error .numericFailure else .ok ⟨Float.log a.modulus, a.argument⟩

end Point

def divReal (x y : Float) : Except Fault Float :=
  if y == 0 then .error .numericDivisionByZero else .ok (x / y)

/-- A power of a real; a root of a negative number is complex. -/
def powReal (x y : Float) : Except Fault Quantity :=
  if x == 0 && y < 0 then .error .numericDivisionByZero
  else if x < 0 && x.isFinite && y.isFinite && y != y.floor then
    return .complex (← Point.pow ⟨x, 0⟩ ⟨y, 0⟩)
  else
    let r := Float.pow x y
    if r.isInf && x.isFinite && y.isFinite then .error .numericFailure else .ok (.real r)

/-- The remainder with the sign of the divisor, of finite numbers exactly. -/
def remainder (x y : Float) : Float :=
  match Binary64.toRat? x, Binary64.toRat? y with
  | some a, some b =>
    match Rational.modulo a b with
    | .ok r => (Binary64.ofRat? r).getD y
    | .error _ => 0 / 0
  | some a, none => if y.isNaN then y else if a = 0 then 0 else if (a < 0) == (y < 0) then x else y
  | none, _ => 0 / 0

/-- The remainder with the sign of the divisor; zero divides nothing. -/
def modReal (x y : Float) : Except Fault Float :=
  if y == 0 then .error .numericDivisionByZero else .ok (remainder x y)

/-- Refuses a NaN that the argument did not bring and an infinity at a finite argument. -/
def checked (f : Float → Float) (x : Float) : Except Fault Float :=
  let r := f x
  if (r.isNaN && !x.isNaN) || (r.isInf && x.isFinite) then .error .numericFailure else .ok r

/-- The functions of one real argument that go through binary64 as they are. -/
def plainFunction? : Builtin → Option (Float → Float)
  | .sin => some Float.sin
  | .cos => some Float.cos
  | .tan => some Float.tan
  | .asin => some Float.asin
  | .acos => some Float.acos
  | .atan => some Float.atan
  | .sinh => some Float.sinh
  | .cosh => some Float.cosh
  | .tanh => some Float.tanh
  | .asinh => some Float.asinh
  | .acosh => some Float.acosh
  | .atanh => some Float.atanh
  | .erf => some erf
  | .log => some Float.log
  | .log10 => some Float.log10
  | .exp => some Float.exp
  | .sqrt => some Float.sqrt
  | .abs => some Float.abs
  | _ => none

def reciprocalOf? : Builtin → Option Builtin
  | .sec => some .cos
  | .csc => some .sin
  | .cot => some .tan
  | _ => none

def isNumeric (f : Builtin) : Bool :=
  (plainFunction? f).isSome || (reciprocalOf? f).isSome ||
    f == .factorial || f == .min || f == .max || f == .mod

/-- The gamma function one further on. -/
def factorial (x : Float) : Except Fault Float :=
  match gamma? (x + 1) with
  | some r => .ok r
  | none => .error .numericFailure

/-- The smaller or the larger of two reals, the first of equal ones. -/
def extreme (f : Builtin) (x y : Float) : Float :=
  if f == .min then if y < x then y else x else if x < y then y else x

namespace Quantity

def point : Quantity → Point
  | real x | sample x => ⟨x, 0⟩
  | complex z => z
  | column _ => ⟨0, 0⟩

/-- Two columns entry by entry; a single entry goes with every other. -/
def zipColumns (f : Float → Float → Float) (xs ys : List Float) : Except Fault Quantity :=
  match xs, ys with
  | [x], ys => .ok (.column (ys.map (f x)))
  | xs, [y] => .ok (.column (xs.map (f · y)))
  | xs, ys =>
    if xs.length = ys.length then .ok (.column (xs.zipWith f ys)) else .error .unsupported

def combine (onReal : Float → Float → Except Fault Quantity)
    (onPoint : Point → Point → Except Fault Quantity) (onData : Float → Float → Float) :
    Quantity → Quantity → Except Fault Quantity
  | real x, real y => onReal x y
  | real x, sample y | sample x, real y | sample x, sample y => .ok (sample (onData x y))
  | real x, column ys | sample x, column ys => .ok (column (ys.map (onData x)))
  | column xs, real y | column xs, sample y => .ok (column (xs.map (onData · y)))
  | column xs, column ys => zipColumns onData xs ys
  | complex a, complex b => onPoint a b
  | complex a, real y => onPoint a ⟨y, 0⟩
  | real x, complex b => onPoint ⟨x, 0⟩ b
  | _, _ => .error .unsupported

def add : Quantity → Quantity → Except Fault Quantity :=
  combine (fun x y => .ok (.real (x + y))) (fun a b => .ok (.complex (a.add b))) (· + ·)

def mul : Quantity → Quantity → Except Fault Quantity :=
  combine (fun x y => .ok (.real (x * y))) (fun a b => .ok (.complex (a.mul b))) (· * ·)

/-- The quotient; among data a division by zero gives an infinity or no number. -/
def div : Quantity → Quantity → Except Fault Quantity :=
  combine (fun x y => do return .real (← divReal x y)) (fun a b => do return .complex (← a.div b))
    (· / ·)

def pow : Quantity → Quantity → Except Fault Quantity :=
  combine powReal (fun a b => do return .complex (← a.pow b)) Float.pow

def mod : Quantity → Quantity → Except Fault Quantity :=
  combine (fun x y => do return .real (← modReal x y)) (fun _ _ => .error .numericFailure) remainder

def log : Quantity → Except Fault Quantity
  | real x =>
    if x < 0 then .ok (complex ⟨Float.log (-x), pi⟩)
    else do return real (← checked Float.log x)
  | complex z => do return complex (← z.log)
  | sample x => .ok (sample (Float.log x))
  | column xs => .ok (column (xs.map Float.log))

/-- A function of one argument as it is, on data without refusals. -/
def applyPlain (f : Float → Float) : Quantity → Except Fault Quantity
  | real x => do return real (← checked f x)
  | complex _ => .error .numericFailure
  | sample x => .ok (sample (f x))
  | column xs => .ok (column (xs.map f))

/-- Factorials of data; one without a value refuses them all. -/
def factorials (xs : List Float) : Except Fault (List Float) :=
  match xs.mapM (fun x => gamma? (x + 1)) with
  | some rs => .ok rs
  | none => .error .unsupported

def applyFactorial : Quantity → Except Fault Quantity
  | real x => do return real (← factorial x)
  | complex _ => .error .numericFailure
  | sample x => do
    match ← factorials [x] with
    | [r] => return sample r
    | rs => return column rs
  | column [] => .error .unsupported
  | column xs => do return column (← factorials xs)

def toData : Quantity → Quantity
  | real x => sample x
  | q => q

/-- The smaller or larger of two data, entry by entry; a NaN prevails. -/
def extremeData (f : Builtin) (x y : Float) : Float :=
  if x.isNaN then x else if y.isNaN then y else extreme f x y

def extremeOfData (f : Builtin) : Quantity → Quantity → Except Fault Quantity
  | sample x, sample y => .ok (sample (extremeData f x y))
  | column xs, column ys =>
    if xs.length = ys.length then .ok (column (xs.zipWith (extremeData f) ys))
    else .error .unsupported
  | _, _ => .error .unsupported

def extremeOfReals (f : Builtin) (best : Float) : Quantity → Except Fault Float
  | real x => .ok (extreme f best x)
  | _ => .error .numericFailure

/-- Minimum or maximum, of at least two numbers or any data. -/
def applyExtreme (f : Builtin) (asData : Bool) (args : List Quantity) : Except Fault Quantity :=
  if asData then
    match args.map toData with
    | [] => .error .unsupported
    | first :: rest => rest.foldlM (extremeOfData f) first
  else
    match args with
    | real x :: y :: rest => do return real (← (y :: rest).foldlM (extremeOfReals f) x)
    | _ => .error .numericFailure

def abs : Quantity → Except Fault Quantity
  | complex z =>
    if z.isFinite && z.modulus.isInf then .error .numericFailure else .ok (real z.modulus)
  | q => q.applyPlain Float.abs

/-- Applies a function; with `asData` every argument counts as data. -/
def apply (asData : Bool) (f : Builtin) (args : List Quantity) : Except Fault Quantity :=
  if f == .min || f == .max then applyExtreme f asData args
  else
    match f, (if asData then args.map toData else args) with
    | .log, [x] => x.log
    | .log, [x, base] => do div (← x.log) (← base.log)
    | .abs, [x] => x.abs
    | .mod, [x, y] => x.mod y
    | .factorial, [x] => x.applyFactorial
    | .erf, [column []] => .error .unsupported
    | f, [x] =>
      match plainFunction? f, (reciprocalOf? f).bind plainFunction? with
      | some g, _ => x.applyPlain g
      | none, some g => do div (real 1) (← x.applyPlain g)
      | none, none => .error .numericFailure
    | _, _ => .error .numericFailure

/-- The real number that a result is, up to a negligible imaginary part. -/
def toReal : Quantity → Except Fault Float
  | real x | sample x => .ok x
  | complex z =>
    let size := if 1 < z.re.abs then z.re.abs else 1
    if 1e-12 * size < z.im.abs then .error .complexResult else .ok z.re
  | column _ => .error .unsupported

end Quantity
end ExactAlgebra.Numeric
