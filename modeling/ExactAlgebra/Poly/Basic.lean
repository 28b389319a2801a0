import ExactAlgebra.Rational.Basic

/-! Polynomials in one unknown with rational coefficients, the lowest power first and no zero at
the end, so that equal polynomials have equal coefficients. -/
namespace ExactAlgebra

def trimZeros : List Rat → List Rat
  | [] => []
  | c :: cs =>
    match trimZeros cs with
    | [] => if c = 0 then [] else [c]
    | d :: ds => c :: d :: ds

/-- A trimmed list does not end in zero. -/
theorem getLast?_trimZeros (cs : List Rat) : (trimZeros cs).getLast? ≠ some 0 := by
  induction cs with
  | nil => simp [trimZeros]
  | cons c cs ih =>
    unfold trimZeros
    split
    · split <;> simp_all
    · rename_i d ds same
      rw [same] at ih
      simpa using ih

structure Poly where
  coefficients : List Rat
  normal : coefficients.getLast? ≠ some 0

namespace Poly

/-- The polynomial with these coefficients, the lowest power first. -/
def ofList (cs : List Rat) : Poly := ⟨trimZeros cs, getLast?_trimZeros cs⟩

def zero : Poly := ofList []

def const (c : Rat) : Poly := ofList [c]

/-- The polynomial `d * x - n`, whose root is `n / d`. -/
def linear (n d : Rat) : Poly := ofList [-n, d]

def isZero (p : Poly) : Bool := p.coefficients.isEmpty

/-- The degree; that of zero is minus one. -/
def degree (p : Poly) : Int := p.coefficients.length - 1

/-- The coefficient of the highest power, zero for the zero polynomial. -/
def leading (p : Poly) : Rat := p.coefficients.getLast?.getD 0

def coeff (p : Poly) (n : Nat) : Rat := p.coefficients.getD n 0

def evaluate (p : Poly) (x : Rat) : Rat := p.coefficients.foldr (fun c value => value * x + c) 0

/-- Coefficientwise sum; the longer list goes on alone. -/
def addLists : List Rat → List Rat → List Rat
  | [], ds => ds
  | cs, [] => cs
  | c :: cs, d :: ds => (c + d) :: addLists cs ds

def add (p q : Poly) : Poly := ofList (addLists p.coefficients q.coefficients)

def scale (p : Poly) (k : Rat) : Poly := ofList (p.coefficients.map (· * k))

def neg (p : Poly) : Poly := ofList (p.coefficients.map (-·))

def sub (p q : Poly) : Poly := add p (neg q)

/-- The product of coefficient lists: the first coefficient times all, and the rest one power
higher. -/
def mulLists : List Rat → List Rat → List Rat
  | [], _ => []
  | c :: cs, ds => addLists (ds.map (c * ·)) (0 :: mulLists cs ds)

def mul (p q : Poly) : Poly := ofList (mulLists p.coefficients q.coefficients)

def pow (p : Poly) : Nat → Poly
  | 0 => const 1
  | n + 1 => mul (pow p n) p

/-- Multiplies each coefficient by its power, counted from `n`. -/
def timesPowers (n : Nat) : List Rat → List Rat
  | [] => []
  | c :: cs => (c * n) :: timesPowers (n + 1) cs

def derivative (p : Poly) : Poly := ofList ((timesPowers 0 p.coefficients).drop 1)

def monic (p : Poly) : Poly := if p.isZero then p else p.scale p.leading⁻¹

/-- The unknown to a power. -/
def shift (n : Nat) : Poly := ofList (List.replicate n 0 ++ [1])

instance : BEq Poly := ⟨fun p q => p.coefficients == q.coefficients⟩

/-- `(c, p)` with the polynomial equal to `c * p`, where `p` has coprime integer coefficients and
a positive leading one. -/
def primitive (p : Poly) : Rat × Poly :=
  if p.isZero then (0, p) else
    let den : Nat := p.coefficients.foldl (fun l c => Nat.lcm l c.den) 1
    let ints : List Int := p.coefficients.map fun (c : Rat) => (c * (den : Rat)).num
    let divisor : Nat := ints.foldl (fun g n => Nat.gcd g n.natAbs) 0
    let signed : Int := if p.leading < 0 then -divisor else divisor
    (Rational.ratio signed den, ofList (ints.map fun n => ((n / signed : Int) : Rat)))

end Poly
end ExactAlgebra
