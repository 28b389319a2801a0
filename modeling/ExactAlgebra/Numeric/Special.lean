/-! The error function and the gamma function in binary64. -/
namespace ExactAlgebra.Numeric

def pi : Float := 3.141592653589793

def squareRootOfPi : Float := 1.772453850905516

/-- The power series of the error function, summed from its last term. -/
def erfSeries (x : Float) : Float :=
  let square := x * x
  let (sum, _) := (List.range 25).foldl (fun (sum, k) _ => (2 + square * sum / k, k - 1)) (0, 25.5)
  sum * x * Float.exp (-square) / squareRootOfPi

/-- The continued fraction of the complementary error function, for arguments away from zero. -/
def erfcFraction (x : Float) : Float :=
  if 30 ≤ x then 0 else
    let square := x * x
    let start : Float × Float × (Float × Float) × (Float × Float) :=
      (0, 0.5, (0, 1), (1, 0.5 + square))
    let (_, _, (_, p), (_, q)) := (List.range 50).foldl
      (fun (a, da, (p₀, p₁), (q₀, q₁)) _ =>
        let a := a + da
        let da := da + 2
        let b := da + square
        (a, da, (p₁, b * p₁ - a * p₀), (q₁, b * q₁ - a * q₀))) start
    p / q * x * Float.exp (-square) / squareRootOfPi

def erf (x : Float) : Float :=
  if x.isNaN then x
  else if x.abs < 1.5 then erfSeries x
  else if 0 < x then 1 - erfcFraction x
  else erfcFraction (-x) - 1

/-- Coefficients of the rational approximation of the gamma function: numerator and denominator,
lowest degree first. -/
def gammaCoefficients : List (Float × Float) :=
  [(23531376880.41076, 0), (42919803642.6491, 39916800), (35711959237.35567, 120543840),
    (17921034426.03721, 150917976), (6039542586.352028, 105258076),
    (1439720407.3117216, 45995730), (248874557.86205417, 13339535), (31426415.585400194, 2637558),
    (2876370.6289353725, 357423), (186056.2653952235, 32670), (8071.672002365816, 1925),
    (210.82427775157935, 66), (2.5066282746310002, 1)]

def gammaRatio (x : Float) : Float :=
  let (n, d) :=
    if x < 5 then
      gammaCoefficients.reverse.foldl (fun (n, d) (p, q) => (n * x + p, d * x + q)) (0, 0)
    else gammaCoefficients.foldl (fun (n, d) (p, q) => (n / x + p, d / x + q)) (0, 0)
  n / d

def gammaShift : Float := 6.024680040776729583740234375

/-- The sine of `pi * x` for a positive `x`. -/
def sineOfPiTimes (x : Float) : Float :=
  let y := x - 2 * (x / 2).floor
  let quarter := (2 * y).round
  if quarter == 0 then Float.sin (pi * y)
  else if quarter == 1 then Float.cos (pi * (y - 0.5))
  else if quarter == 2 then Float.sin (pi * (1 - y))
  else if quarter == 3 then -Float.cos (pi * (y - 1.5))
  else Float.sin (pi * (y - 2))

/-- The gamma function away from the integers it is tabulated at, by reflection for negative
arguments. -/
def gammaByRatio (x : Float) : Float :=
  let size := x.abs
  let shift := gammaShift - 0.5
  let y := size + shift
  let error := if shift < size then y - size - shift else y - shift - size
  let z := error * gammaShift / y
  let half := Float.pow y (size / 2 - 0.25)
  if x < 0 then
    let r := -pi / sineOfPiTimes size / size * Float.exp y / gammaRatio size
    let r := r - z * r
    if size < 140 then r / Float.pow y (size - 0.5) else r / half / half
  else
    let r := gammaRatio size / Float.exp y
    let r := r + z * r
    if size < 140 then r * Float.pow y (size - 0.5) else r * half * half

/-- The gamma function; at its poles, and where it leaves the range, there is no value. -/
def gamma? (x : Float) : Option Float :=
  if x.isNaN then some x
  else if x.isInf then if 0 < x then some x else none
  else if x == x.floor && x ≤ 0 then none
  else if x == x.floor && x ≤ 23 then
    some ((List.range (x.toUInt64.toNat - 1)).foldl (fun n k => n * (k.toFloat + 1)) 1)
  else
    let r :=
      if x.abs < 1e-20 then 1 / x
      else if 200 < x then 1 / 0
      else if x < -200 then 0 / sineOfPiTimes x.abs
      else gammaByRatio x
    if r.isInf then none else some r

end ExactAlgebra.Numeric
