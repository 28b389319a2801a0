import ExactAlgebra.Numeric.Quantity

/-! The routine for numeric roots that the program gives to its sessions; algorithms and proofs know
it as any `RootFinder`. It moves all roots at once, each by Newton's correction, from which the pull
of the other roots is taken away; a fixed number of rounds is enough to settle simple roots to the
last places. -/
namespace ExactAlgebra.Numeric

namespace Point

def sub (a b : Point) : Point := ⟨a.re - b.re, a.im - b.im⟩

/-- The quotient, with zero for a division by zero. -/
def quotient (a b : Point) : Point :=
  match a.div b with
  | .ok z => z
  | .error _ => ⟨0, 0⟩

end Point

/-- Value and derivative of a polynomial, the highest coefficient first. -/
def horner (cs : List Float) (z : Point) : Point × Point :=
  cs.foldl (fun (value, slope) c => ((value.mul z).add ⟨c, 0⟩, (slope.mul z).add value))
    (⟨0, 0⟩, ⟨0, 0⟩)

/-- One root moved, given all of them and its own place. -/
def improveRoot (cs : List Float) (zs : List Point) (z : Point) (place : Nat) : Point :=
  let (value, slope) := horner cs z
  if value.isOrigin then z else
    let newton := value.quotient slope
    let pull := (zs.eraseIdx place).foldl
      (fun total other => total.add (Point.quotient ⟨1, 0⟩ (z.sub other))) ⟨0, 0⟩
    let next := z.sub (newton.quotient (Point.sub ⟨1, 0⟩ (newton.mul pull)))
    if next.isFinite then next else z

/-- Rounds of improvement of all roots. -/
def improveRoots (cs : List Float) : Nat → List Point → List Point
  | 0, zs => zs
  | n + 1, zs => improveRoots cs n (zs.zipIdx.map fun (z, place) => improveRoot cs zs z place)

/-- Starting points on a circle whose radius is the geometric mean of the roots' sizes. -/
def startingPoints (cs : List Float) : List Point :=
  let degree := cs.length - 1
  let n := degree.toFloat
  let radius := Float.pow ((cs.getLastD 1) / (cs.headD 1)).abs (1 / n)
  (List.range degree).map fun k =>
    let angle := 2 * pi * k.toFloat / n + 0.4
    ⟨radius * Float.cos angle, radius * Float.sin angle⟩

/-- The roots of a polynomial, the highest coefficient first. Zeros in front do not count, zeros at
the end are roots at the origin. -/
def polynomialRoots : RootFinder := fun coefficients =>
  let trimmed := coefficients.dropWhile (· == 0)
  let core := (trimmed.reverse.dropWhile (· == 0)).reverse
  let origins := List.replicate (trimmed.length - core.length) (⟨0, 0⟩ : Point)
  improveRoots core 200 (startingPoints core) ++ origins

end ExactAlgebra.Numeric
