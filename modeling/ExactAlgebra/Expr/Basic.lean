import ExactAlgebra.Rational.Basic
import ExactAlgebra.Text.Digit

/-! Expression trees. Every node carries an exact coefficient; symbols, calls and sums also carry
an exact power. The terms of a sum and the factors of a product are kept in the order in which
they were put in. A call that was left unevaluated may have been given something that is no
expression; that is carried along and cannot be looked into. -/
namespace ExactAlgebra

/-- An expression. A symbol is a variable, one of the named constants, or an integer whose root
is kept exact; its name is then the integer's text. -/
inductive Expr
  | number (value : Rat)
  | symbol (coeff : Rat) (name : String) (power : Rat)
  | call (coeff : Rat) (name : String) (args : List Expr) (power : Rat)
  | sum (coeff : Rat) (terms : List Expr) (power : Rat)
  | product (coeff : Rat) (factors : List Expr)
  | exponential (coeff : Rat) (base exponent : Expr)
  /-- An argument that is no expression: a list, or an equation, which can be copied. -/
  | foreign (copyable : Bool)
deriving Inhabited, Repr

def isConstantName (name : String) : Bool := name == "pi" || name == "e" || name == "i"

/-- Digits with an optional minus sign in front. -/
def isIntegerText (name : String) : Bool :=
  let digits :=
    match name.toList with
    | '-' :: s => s
    | s => s
  !digits.isEmpty && digits.all Text.isDigit

def isVariableName (name : String) : Bool := !isConstantName name && !isIntegerText name

/-- The integer that an integer text denotes. -/
def integerOf (name : String) : Int :=
  match name.toList with
  | '-' :: s => -(Text.naturalOf s)
  | s => Text.naturalOf s

namespace Expr

def zero : Expr := number 0

def one : Expr := number 1

def bare (name : String) : Expr := symbol 1 name 1

/-- A call left unevaluated. -/
def inert (name : String) (args : List Expr) : Expr := call 1 name args 1

def coeff : Expr → Rat
  | number c | symbol c _ _ | call c _ _ _ | sum c _ _ | product c _ | exponential c _ _ => c
  | foreign _ => 1

def withCoeff (e : Expr) (c : Rat) : Expr :=
  match e with
  | number _ => number c
  | symbol _ name p => symbol c name p
  | call _ name args p => call c name args p
  | sum _ terms p => sum c terms p
  | product _ factors => product c factors
  | exponential _ base exponent => exponential c base exponent
  | foreign copyable => foreign copyable

/-- The constant power of a node; products and exponentials have power one. -/
def power : Expr → Rat
  | symbol _ _ p | call _ _ _ p | sum _ _ p => p
  | number _ | product .. | exponential .. | foreign _ => 1

/-- The same node with another power, where the node has one. -/
def withPower (e : Expr) (p : Rat) : Expr :=
  match e with
  | symbol c name _ => symbol c name p
  | call c name args _ => call c name args p
  | sum c terms _ => sum c terms p
  | e => e

/-- The node with coefficient one. -/
def unit (e : Expr) : Expr := e.withCoeff 1

/-- The node with coefficient and power one. -/
def stem (e : Expr) : Expr := e.unit.withPower 1

/-- The node times a number; zero collapses. -/
def scale (e : Expr) (c : Rat) : Expr := if c = 0 then zero else e.withCoeff (e.coeff * c)

def isNumber : Expr → Bool
  | number _ => true
  | _ => false

def isZero : Expr → Bool
  | number c => c == 0
  | _ => false

def isOne : Expr → Bool
  | number c => c == 1
  | _ => false

def isSum : Expr → Bool
  | sum .. => true
  | _ => false

/-- A sum of power one. -/
def isPlainSum : Expr → Bool
  | sum _ _ p => p == 1
  | _ => false

def isSymbol : Expr → Bool
  | symbol .. => true
  | _ => false

def isCall : Expr → Bool
  | call .. => true
  | _ => false

def isProduct : Expr → Bool
  | product .. => true
  | _ => false

/-- The expression has an expression as exponent. -/
def isExponential : Expr → Bool
  | exponential .. => true
  | _ => false

/-- An integer kept under a root. -/
def isIntegerBase : Expr → Bool
  | symbol _ name _ => isIntegerText name
  | _ => false

/-- A power of the base of natural logarithms. -/
def isE : Expr → Bool
  | symbol _ name _ => name == "e"
  | _ => false

def isUnitE (e : Expr) : Bool := e.isE && e.coeff == 1

/-- The name of a symbol with coefficient and power one. -/
def bareName? : Expr → Option String
  | symbol c name p => if c == 1 && p == 1 then some name else none
  | _ => none

def isBare (e : Expr) (name : String) : Bool := e.bareName? == some name

/-- The name and arguments of a call with coefficient and power one. -/
def bareCall? : Expr → Option (String × List Expr)
  | call c name args p => if c == 1 && p == 1 then some (name, args) else none
  | _ => none

def name? : Expr → Option String
  | symbol _ name _ | call _ name _ _ => some name
  | _ => none

def value? : Expr → Option Rat
  | number c => some c
  | _ => none

def integer? (e : Expr) : Option Int :=
  match e with
  | number c => if Rational.isInteger c then some c.num else none
  | _ => none

/-- The terms or factors directly below a sum or product. -/
def children : Expr → List Expr
  | sum _ es _ | product _ es => es
  | _ => []

/-- The arguments of a call, or base and exponent of an exponential. -/
def arguments : Expr → List Expr
  | call _ _ args _ => args
  | exponential _ base exponent => [base, exponent]
  | _ => []

mutual
def size : Expr → Nat
  | number _ | symbol .. | foreign _ => 1
  | call _ _ args _ => sizeAll args + 1
  | sum _ terms _ => sizeAll terms + 1
  | product _ factors => sizeAll factors + 1
  | exponential _ base exponent => base.size + exponent.size + 1

def sizeAll : List Expr → Nat
  | [] => 0
  | e :: es => e.size + sizeAll es
end

mutual
def contains (x : String) : Expr → Bool
  | number _ | foreign _ => false
  | symbol _ name _ => name == x
  | call _ _ args _ => anyContains x args
  | sum _ terms _ => anyContains x terms
  | product _ factors => anyContains x factors
  | exponential _ base exponent => base.contains x || exponent.contains x

def anyContains (x : String) : List Expr → Bool
  | [] => false
  | e :: es => e.contains x || anyContains x es
end

mutual
def calls (f : String) : Expr → Bool
  | number _ | symbol .. | foreign _ => false
  | call _ name args _ => name == f || anyCalls f args
  | sum _ terms _ => anyCalls f terms
  | product _ factors => anyCalls f factors
  | exponential _ base exponent => base.calls f || exponent.calls f

def anyCalls (f : String) : List Expr → Bool
  | [] => false
  | e :: es => e.calls f || anyCalls f es
end

mutual
def names : Expr → List String
  | number _ | foreign _ => []
  | symbol _ name _ => [name]
  | call _ _ args _ => namesAll args
  | sum _ terms _ => namesAll terms
  | product _ factors => namesAll factors
  | exponential _ base exponent => base.names ++ exponent.names

def namesAll : List Expr → List String
  | [] => []
  | e :: es => e.names ++ namesAll es
end

def sortNames (names : List String) : List String :=
  (names.mergeSort fun a b => decide (a ≤ b)).eraseDups

/-- The unknowns of an expression, in increasing order. -/
def freeNames (e : Expr) : List String := sortNames (e.names.filter isVariableName)

def isConstant (e : Expr) : Bool := e.freeNames.isEmpty

/-- The unknown whose powers are all the terms, if there is one. -/
def powersOf? : List Expr → Option String
  | [] => none
  | symbol _ name _ :: es =>
    if isVariableName name && es.all (fun e => e.isSymbol && e.name? == some name) then some name
    else none
  | _ :: _ => none

mutual
/-- Something that is no expression stands somewhere in the tree. -/
def holdsForeign : Expr → Bool
  | foreign _ => true
  | number _ | symbol .. => false
  | call _ _ args _ => anyForeign args
  | sum _ terms _ => anyForeign terms
  | product _ factors => anyForeign factors
  | exponential _ base exponent => base.holdsForeign || exponent.holdsForeign

def anyForeign : List Expr → Bool
  | [] => false
  | e :: es => e.holdsForeign || anyForeign es
end

mutual
/-- The tree can be copied, which a list inside it cannot. -/
def isCopyable : Expr → Bool
  | foreign copyable => copyable
  | number _ | symbol .. => true
  | call _ _ args _ => allCopyable args
  | sum _ terms _ => allCopyable terms
  | product _ factors => allCopyable factors
  | exponential _ base exponent => base.isCopyable && exponent.isCopyable

def allCopyable : List Expr → Bool
  | [] => true
  | e :: es => e.isCopyable && allCopyable es
end

/-- Refuses a tree that cannot be looked into everywhere. -/
def checkOpen (e : Expr) : Except Fault Unit :=
  if e.holdsForeign then .error .unsupported else .ok ()

end Expr
end ExactAlgebra
