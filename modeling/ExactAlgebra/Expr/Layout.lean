import ExactAlgebra.Expr.Basic

/-! Canonical text. The text of an expression is at once what is shown, what decides equality,
and the key by which like terms and like factors are found. It is laid out with the coefficient
left open, because two terms are alike when they differ in the coefficient alone. -/
namespace ExactAlgebra

/-- A term with its coefficient left open. -/
inductive Entry
  | number
  | fraction (above below : List String)

/-- Terms in the order in which they are written, each with its share of the coefficient. -/
abbrev Layout := List (Rat × Entry)

/-- The factors below the line; several need parentheses. -/
def belowText : List String → String
  | [] => ""
  | [factor] => "/" ++ factor
  | factors => "/(" ++ String.intercalate "*" factors ++ ")"

/-- A term with coefficient `c`: the sign in front, the numerator before the factors above the
line, the denominator before those below it. -/
def Entry.text (c : Rat) : Entry → String
  | .number => Rational.text c
  | .fraction above below =>
    let m := Rational.abs c
    let head := if m.num ≠ 1 || above.isEmpty then [toString m.num] else []
    let bottom := if m.den ≠ 1 then toString m.den :: below else below
    (if c < 0 then "-" else "") ++ String.intercalate "*" (head ++ above) ++ belowText bottom

/-- Terms in a row; a plus sign stands before each later one that has no sign of its own. -/
def joinTerms : List String → String
  | [] => ""
  | first :: rest =>
    first ++ String.join (rest.map fun t => if t.startsWith '-' then t else "+" ++ t)

def Layout.isWritable (layout : Layout) (c : Rat) : Bool :=
  layout.all fun (share, _) => Rational.isWritable (share * c)

def Layout.text (layout : Layout) (c : Rat) : String :=
  joinTerms (layout.map fun (share, entry) => entry.text (share * c))

/-- A factor of power `p` from its text with and without protection by parentheses. -/
def poweredText (inner guarded : String) (p : Rat) : String :=
  if p = 1 then guarded
  else if p = 1 / 2 then "sqrt(" ++ inner ++ ")"
  else if Rational.isInteger p && decide (0 < p) then guarded ++ "^" ++ Rational.text p
  else guarded ++ "^(" ++ Rational.text p ++ ")"

/-- What the text of an expression contributes to the texts around it. -/
structure Face where
  layout : Layout
  /-- Coefficient and power left out. -/
  inner : String
  /-- The same, with parentheses where a power could not follow otherwise. -/
  guarded : String
  /-- The key under which factors are alike. -/
  key : String
  /-- The total power of unknowns in a term. -/
  degree : Rat
  /-- The texts in the layout can be written out; whether the coefficients can is another matter. -/
  isLegible : Bool
  /-- The key can be written out. -/
  hasKey : Bool

def Face.isLegibleTimes (face : Face) (c : Rat) : Bool :=
  face.isLegible && face.layout.isWritable c

/-- Position of a term in a sum: numbers last, then by falling degree, then by text. -/
structure TermRank where
  isNumber : Bool
  degree : Rat
  key : String
  /-- The key can be written out. -/
  hasKey : Bool

def TermRank.le (a b : TermRank) : Bool :=
  if a.isNumber ≠ b.isNumber then b.isNumber
  else if a.degree ≠ b.degree then decide (b.degree < a.degree)
  else decide (a.key ≤ b.key)

/-- Position of a factor in a product: by kind, then by text. -/
structure FactorRank where
  rank : Nat
  key : String

def FactorRank.le (a b : FactorRank) : Bool :=
  if a.rank ≠ b.rank then decide (a.rank < b.rank) else decide (a.key ≤ b.key)

/-- Puts an item in front of the first one that may follow it. -/
def insertByRank (le : ρ → ρ → Bool) (item : ρ × α) : List (ρ × α) → List (ρ × α)
  | [] => [item]
  | next :: rest =>
    if le item.1 next.1 then item :: next :: rest else next :: insertByRank le item rest

/-- Sorts items by rank; items of equal rank keep their order. -/
def sortByRank (le : ρ → ρ → Bool) (items : List (ρ × α)) : List α :=
  (items.foldr (insertByRank le) []).map (·.2)

namespace Expr

def termRank (e : Expr) (face : Face) : TermRank :=
  if e.isNumber then ⟨true, face.degree, "#", true⟩
  else ⟨false, face.degree, face.layout.text 1, face.isLegibleTimes 1⟩

/-- Where a factor stands in a product: integers under a root, constants, other symbols, then the
rest. -/
def factorRank (e : Expr) (face : Face) : FactorRank :=
  let rank :=
    match e with
    | symbol _ name _ => if isIntegerText name then 0 else if isConstantName name then 1 else 2
    | call .. => 3
    | sum .. => 4
    | exponential .. => 5
    | _ => 6
  ⟨rank, face.key⟩

/-- The node stands before a power sign or as an exponent without parentheses. -/
def isAtom : Expr → Bool
  | number c => Rational.isInteger c && decide (0 < c)
  | symbol c _ p | call c _ _ p => c == 1 && p == 1
  | _ => false

def operandText (e : Expr) (face : Face) : String :=
  let text := face.layout.text e.coeff
  if e.isAtom then text else "(" ++ text ++ ")"

/-- A factor stands above the line unless its power is negative. -/
def factorSide (e : Expr) (face : Face) : Bool × String :=
  match e with
  | exponential .. => (true, face.inner)
  | e =>
    if e.power < 0 then (false, poweredText face.inner face.guarded (-e.power))
    else (true, poweredText face.inner face.guarded e.power)

def fractionEntry (factors : List (Bool × String)) : Entry :=
  .fraction ((factors.filter (·.1)).map (·.2)) ((factors.filter (!·.1)).map (·.2))

/-- The face of a node that is a term of one factor; `hasKey` tells that what stands under the power
can be written out. -/
def singleFace (e : Expr) (inner guarded : String) (degree : Rat) (hasKey : Bool) : Face :=
  let face : Face :=
    ⟨[], inner, guarded, guarded, degree, hasKey && Rational.isWritable e.power, hasKey⟩
  { face with layout := [(1, fractionEntry [e.factorSide face])] }

mutual
/-- How a node is written, from the faces of its children. -/
def face : Expr → Face
  | number c => ⟨[(1, .number)], "1", "(1)", "#" ++ Rational.text c, 0, true, Rational.isWritable c⟩
  | symbol c name p =>
    let guarded := if name.startsWith '-' then "(" ++ name ++ ")" else name
    singleFace (symbol c name p) name guarded (if isVariableName name then p else 0) true
  | call c name args p =>
    let fs := faces args
    let shown := args.zipWith (fun a f => f.layout.text a.coeff) fs
    let inner := name ++ "(" ++ String.intercalate "," shown ++ ")"
    singleFace (call c name args p) inner inner 0
      ((args.zipWith (fun a f => f.isLegibleTimes a.coeff) fs).all id)
  | sum c terms p =>
    let ranked := terms.zipWith (fun t f => (t.termRank f, (t.coeff, f.layout))) (faces terms)
    let layout : Layout := (sortByRank TermRank.le ranked).flatMap fun (share, layout) =>
      layout.map fun (s, entry) => (share * s, entry)
    let inner := layout.text 1
    let guarded := "(" ++ inner ++ ")"
    let isLegible := ranked.all fun (rank, _) => rank.hasKey
    let hasKey := isLegible && layout.isWritable 1
    if p = 1 then ⟨layout, inner, guarded, guarded, 0, isLegible, hasKey⟩
    else singleFace (sum c terms p) inner guarded 0 hasKey
  | product _ factors =>
    let fs := faces factors
    let ranked := factors.zipWith (fun g f => (g.factorRank f, g.factorSide f)) fs
    let layout : Layout := [(1, fractionEntry (sortByRank FactorRank.le ranked))]
    let inner := layout.text 1
    let guarded := "(" ++ inner ++ ")"
    let isLegible := fs.all fun f => f.isLegible && f.hasKey
    ⟨layout, inner, guarded, guarded, fs.foldl (fun d f => d + f.degree) 0, isLegible, isLegible⟩
  | exponential _ base exponent =>
    let baseFace := face base
    let exponentFace := face exponent
    let text := base.operandText baseFace ++ "^" ++ exponent.operandText exponentFace
    let baseIsLegible := baseFace.isLegibleTimes base.coeff
    let (key, hasKey) :=
      if base.coeff = 1 then (baseFace.key, baseFace.hasKey)
      else ("(" ++ baseFace.layout.text base.coeff ++ ")", baseIsLegible)
    let isLegible := baseIsLegible && exponentFace.isLegibleTimes exponent.coeff
    ⟨[(1, .fraction [text] [])], text, text, key, 0, isLegible, hasKey⟩
  | foreign _ => ⟨[], "", "", "", 0, false, false⟩

def faces : List Expr → List Face
  | [] => []
  | e :: es => face e :: faces es
end

def text (e : Expr) : String := e.face.layout.text e.coeff

/-- The canonical text, unless a number in it is too long or something in it is no expression. -/
def render (e : Expr) : Except Fault String :=
  let face := e.face
  if face.isLegibleTimes e.coeff then .ok (face.layout.text e.coeff) else .error .unsupported

def isLegible (e : Expr) : Bool := e.face.isLegibleTimes e.coeff

def hasBaseKey (e : Expr) : Bool := e.face.hasKey

/-- The key under which two terms are alike for addition. -/
def termKey (e : Expr) : String := if e.isNumber then "#" else e.face.layout.text 1

/-- The key under which two factors are alike for multiplication. -/
def baseKey (e : Expr) : String := e.face.key

/-- The total power of unknowns in a term. -/
def degreeHint (e : Expr) : Rat := e.face.degree

def sortTerms (terms : List Expr) : List Expr :=
  sortByRank TermRank.le (terms.map fun t => (t.termRank t.face, t))

def sortFactors (factors : List Expr) : List Expr :=
  sortByRank FactorRank.le (factors.map fun f => (f.factorRank f.face, f))

/-- The terms of a plain sum in order, its own coefficient left out; any other node is its own
only term. -/
def terms : Expr → List Expr
  | sum c terms p => if p = 1 then sortTerms terms else [sum c terms p]
  | e => [e]

/-- The factors of a product in order; any other node but a number is its own only factor, with
coefficient one. -/
def factors : Expr → List Expr
  | product _ factors => sortFactors factors
  | number _ => []
  | e => [e.unit]

/-- The terms of a plain sum in order, its coefficient spread over them. -/
def spreadTerms : Expr → List Expr
  | sum c terms p =>
    if p = 1 then (sortTerms terms).map fun t => t.withCoeff (t.coeff * c) else [sum c terms p]
  | e => [e]

def shapeName : Expr → String
  | number _ => "CONSTANT"
  | symbol .. => "MONOMIAL"
  | call .. => "FUNCTION"
  | sum _ terms _ => if (powersOf? terms).isSome then "POLYNOMIAL" else "SUM"
  | product .. => "PRODUCT"
  | exponential .. => "EXPONENTIAL"
  | foreign _ => ""

/-- Equality of expressions is equality of their texts, which have to be written out for it. -/
def same (a b : Expr) : Except Fault Bool := do
  let first ← a.render
  return first == (← b.render)

end Expr
end ExactAlgebra
