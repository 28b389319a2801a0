import ExactAlgebra.Datum.Basic

/-! Best rational approximation under a bound on the denominator, by continued fractions. A bound
that is a binary64 number makes the last step one of binary64 arithmetic, which may miss the best
approximation. -/
namespace ExactAlgebra.Rational

/-- Two successive convergents `p₀/q₀` and `p₁/q₁` of a continued fraction. -/
structure Convergents where
  p₀ : Int
  q₀ : Int
  p₁ : Int
  q₁ : Int

def Convergents.start : Convergents := ⟨0, 1, 1, 0⟩

def Convergents.next (c : Convergents) (a : Int) : Convergents :=
  ⟨c.p₁, c.q₁, c.p₀ + a * c.p₁, c.q₀ + a * c.q₁⟩

/-- The last convergents of `n / d` whose denominators stay within the bound. -/
def convergents (bound : Int) (c : Convergents) (n : Int) (d : Nat) : Convergents :=
  let a := n.fdiv d
  let c' := c.next a
  if c'.q₁ > bound then c
  else if _last : d = 0 ∨ n.fmod d = 0 then c'
  else convergents bound c' d (n.fmod d).toNat
termination_by d
decreasing_by
  have positive : (0 : Int) < d := by omega
  have := Int.fmod_lt_of_pos n positive
  omega

/-- The rational nearest to `x` among those with denominator at most `bound`; of two nearest ones,
the convergent. -/
def approximate (x : Rat) (bound : Int) : Except Fault Rat :=
  if x.den ≤ bound then .ok x else
    let c := convergents bound .start x.num x.den
    if c.q₁ = 0 then .error .unsupported else
      let k := (bound - c.q₀).fdiv c.q₁
      let between := ratio (c.p₀ + k * c.p₁) (c.q₀ + k * c.q₁)
      let convergent := ratio c.p₁ c.q₁
      .ok (if abs (convergent - x) ≤ abs (between - x) then convergent else between)

/-- The quotient rounded down, as binary64 arithmetic finds it: by way of the remainder. -/
def floorQuotient (x y : Float) : Float :=
  match Binary64.toRat? x, Binary64.toRat? y with
  | some a, some b =>
    let rest := Binary64.nearest (a - b * ((a / b).floor : Rat))
    let quotient := Binary64.nearest (Binary64.nearest (a - rest) / b)
    let below : Rat := quotient.floor
    let whole := if 1 / 2 < Binary64.nearest (quotient - below) then below + 1 else below
    (Binary64.ofRat? whole).getD (0.0 / 0.0)
  | _, _ => 0.0 / 0.0

def cutQuotient (x y : Float) : Except Fault Rat := do
  let a ← Binary64.toRat x
  match Binary64.toRat? y with
  | none => throw .unsupported
  | some b => divide a (truncate b)

def approximateReal (x : Rat) (bound : Float) : Except Fault Rat := do
  let limit : Int := ((Binary64.toRat? bound).map Rat.floor).getD (if bound < 0 then -1 else x.den)
  if x.den ≤ limit && !bound.isNaN then return x
  let c := convergents limit .start x.num x.den
  if c.q₁ = 0 then throw .unsupported
  let k := floorQuotient (bound - (← Binary64.ofRat c.q₀)) (← Binary64.ofRat c.q₁)
  let above := (← Binary64.ofRat c.p₀) + k * (← Binary64.ofRat c.p₁)
  let below := (← Binary64.ofRat c.q₀) + k * (← Binary64.ofRat c.q₁)
  let between ← cutQuotient above below
  let convergent := ratio c.p₁ c.q₁
  return if abs (convergent - x) ≤ abs (between - x) then convergent else between

def ofFloat (x : Float) (bound : Datum) : Except Fault Rat := do
  let a ← Binary64.toRat x
  match bound with
  | .real limit => approximateReal a limit
  | bound => approximate a (← bound.integer)

def usualBound : Int := 1000000000000

end ExactAlgebra.Rational
