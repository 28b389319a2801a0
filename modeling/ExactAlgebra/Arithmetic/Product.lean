import ExactAlgebra.Arithmetic.Sum
import ExactAlgebra.Arithmetic.Radical

/-! Multiplication and powers. Factors are alike when they have the same base key; alike factors
merge into one power, which may in turn be a number, a product, or a factor alike to another one.
Every step down this recursion uses up one unit of a work limit that grows with the operands. -/
namespace ExactAlgebra.Expr

def baseOf : Expr → Expr
  | exponential _ base _ => base
  | symbol c name p =>
    if isIntegerText name then number (integerOf name) else (symbol c name p).stem
  | e => e.stem

def exponentOf : Expr → Expr
  | exponential _ _ exponent => exponent
  | e => number e.power

def removeFactor (key : String) : List (String × Expr) → Option (Expr × List (String × Expr))
  | [] => none
  | (k, f) :: rest =>
    if k == key then some (f, rest)
    else (removeFactor key rest).map fun (g, others) => (g, (k, f) :: others)

/-- The product of factors of which no two are alike. -/
def ofFactors (factors : List Expr) (c : Rat) : Expr :=
  if c = 0 then zero
  else
    match factors with
    | [] => number c
    | [f] => f.withCoeff c
    | factors => product c factors

/-- The factors by which a merged factor goes on: none for a number, its own for a product. -/
def mergedFactors : Expr → List Expr
  | number _ => []
  | product _ factors => factors
  | e => [e.unit]

/-- The multiple and the argument of a logarithm in the exponent of the base of natural
logarithms, which undo each other. -/
def naturalLog? (name : String) (p : Rat) : Expr → Option (Rat × Expr)
  | call k f [u] q =>
    if name == "e" && p == 1 && f == "log" && q == 1 then some (k, u) else none
  | _ => none

mutual
/-- The product of two expressions; the fuel bounds how often merged factors start a new product. -/
def mulWithin : Nat → Expr → Expr → Except Fault Expr
  | 0, _, _ => .error .unsupported
  | n + 1, a, b =>
    if a.isZero || b.isZero then .ok zero
    else
      match a, b with
      | number c, b => .ok (b.scale c)
      | a, number c => .ok (a.scale c)
      | a, b => do
        let (factors, c) ← mergeWithin n (a.factors ++ b.factors) [] (a.coeff * b.coeff)
        return ofFactors (factors.map (·.2)) c

def mergeWithin : Nat → List Expr → List (String × Expr) → Rat →
    Except Fault (List (String × Expr) × Rat)
  | _, [], factors, c => .ok (factors, c)
  | 0, _ :: _, _, _ => .error .unsupported
  | n + 1, f :: pending, factors, c => do
    let face := f.face
    if !face.hasKey then throw .unsupported
    match removeFactor face.key factors with
    | none => mergeWithin n pending (factors ++ [(face.key, f)]) c
    | some (g, others) =>
      let merged ← powWithin n (baseOf g) (← add (exponentOf g) (exponentOf f))
      mergeWithin n (pending ++ mergedFactors merged) others (c * merged.coeff)

/-- A rational power, taken apart over the factors where that keeps the value. -/
def powRatWithin : Nat → Expr → Rat → Except Fault Expr
  | 0, _, _ => .error .unsupported
  | n + 1, a, p =>
    if p = 0 then if a.isZero then .error .zeroToThePowerZero else .ok one
    else if p = 1 then .ok a
    else
      match a with
      | number c =>
        if c = 0 then if p < 0 then .error .divisionByZero else .ok zero else powNumber c p
      | product c factors => do
        factors.foldlM (fun result f => do mulWithin n result (← powRatWithin n f p))
          (← powNumber c p)
      | exponential c base exponent => do
        mulWithin n (← powNumber c p) (← powWithin n base (exponent.scale p))
      | symbol c name q => do
        let outer ← powNumber c p
        if isIntegerText name then mulWithin n outer (← powNumber (integerOf name) (q * p))
        else if name == "i" && Rational.isInteger (q * p) then
          mulWithin n outer (powerOfI (q * p).num)
        else mulWithin n outer (if q * p = 0 then one else symbol 1 name (q * p))
      | a => do
        let total := a.power * p
        mulWithin n (← powNumber a.coeff p) (if total = 0 then one else a.unit.withPower total)

/-- A power with any exponent: numbers go to the rational rule, and nested powers multiply. -/
def powWithin : Nat → Expr → Expr → Except Fault Expr
  | 0, _, _ => .error .unsupported
  | n + 1, a, b =>
    match b with
    | number p => powRatWithin n a p
    | b =>
      if a.isOne then .ok one
      else if a.isZero then .ok zero
      else
        match a, b with
        | exponential c base exponent, b =>
          if c = 1 then do powWithin n base (← mulWithin n exponent b)
          else .ok (exponential 1 (exponential c base exponent) b)
        | symbol c name p, b =>
          if c = 1 then
            match naturalLog? name p b with
            | some (k, u) => powRatWithin n u k
            | none =>
              let base := if isIntegerText name then number (integerOf name) else bare name
              .ok (exponential 1 base (b.scale p))
          else .ok (exponential 1 (symbol c name p) b)
        | a, b => .ok (exponential 1 a b)
end

def workLimit (a b : Expr) : Nat := 16 * (a.size + b.size + 2) * (a.size + b.size + 2)

def mul (a b : Expr) : Except Fault Expr := mulWithin (workLimit a b) a b

/-- The product of factors, after a first one. -/
def mulAll (first : Expr) (factors : List Expr) : Except Fault Expr := factors.foldlM mul first

def powRat (a : Expr) (p : Rat) : Except Fault Expr := powRatWithin (workLimit a a) a p

/-- `a` to the power `b`: a number becomes a power of `a`, anything else an exponential. -/
def pow (a b : Expr) : Except Fault Expr := powWithin (workLimit a b) a b

def inv (a : Expr) : Except Fault Expr :=
  match a with
  | number c => do return number (← Rational.invert c)
  | a => powRat a (-1)

def div (a b : Expr) : Except Fault Expr := do
  if b.isZero then .error .divisionByZero else mul a (← inv b)

def sqrt (a : Expr) : Except Fault Expr := powRat a (1 / 2)

end ExactAlgebra.Expr
