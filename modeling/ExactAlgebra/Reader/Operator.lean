import ExactAlgebra.Value.Arithmetic

/-! Operators: how tightly they bind, where they stand, and what they do. Arithmetic goes item by
item into lists and refuses equations. -/
namespace ExactAlgebra.Reader

inductive Fixity
  | between
  | before
  | after
  /-- A place of that name, in which no operator is looked for. -/
  | elsewhere (name : String)
deriving DecidableEq, Repr

inductive OperatorAction
  | equals | add | subtract | multiply | divide | modulo | power
  | negate | positive | factorial | percent
  /-- A rule given from outside. -/
  | native (rule : List Value → Except Fault Value)

structure Operator where
  symbol : String
  name : String
  precedence : Int
  action : OperatorAction
  arity : Int
  fixity : Fixity
  rightAssociative : Bool

abbrev OperatorTable := List ((String × Fixity) × Operator)

/-- Applies a rule to two values that are no lists on the left; lists on the right are entered. -/
def liftRight (rule : Expr → Expr → Engine Value) (a : Value) : Value → Engine Value
  | .list items => return .list (← liftRightAll items)
  | .equation _ _ => throw .equationArithmetic
  | .expr e =>
    match a with
    | .expr d => rule d e
    | _ => throw .equationArithmetic
where
  liftRightAll : List Value → Engine (List Value)
    | [] => return []
    | v :: vs => do
      let v ← liftRight rule a v
      return v :: (← liftRightAll vs)

mutual
/-- Applies a rule to two values; lists are entered, two lists in step. -/
def liftBinary (rule : Expr → Expr → Engine Value) : Value → Value → Engine Value
  | .list xs, .list ys =>
    if xs.length = ys.length then return .list (← liftPairs rule xs ys)
    else throw (.listLengths xs.length ys.length)
  | .list xs, b => return .list (← liftEach rule xs b)
  | .expr a, b => liftRight rule (.expr a) b
  | .equation l r, b => liftRight rule (.equation l r) b

def liftPairs (rule : Expr → Expr → Engine Value) : List Value → List Value → Engine (List Value)
  | x :: xs, y :: ys => do
    let v ← liftBinary rule x y
    return v :: (← liftPairs rule xs ys)
  | _, _ => return []

def liftEach (rule : Expr → Expr → Engine Value) : List Value → Value → Engine (List Value)
  | [], _ => return []
  | x :: xs, b => do
    let v ← liftBinary rule x b
    return v :: (← liftEach rule xs b)
end

mutual
def liftUnary (rule : Expr → Engine Value) : Value → Engine Value
  | .list items => return .list (← liftUnaryAll rule items)
  | .equation left right => do
    let left ← liftUnary rule left
    return .equation left (← liftUnary rule right)
  | .expr e => rule e

def liftUnaryAll (rule : Expr → Engine Value) : List Value → Engine (List Value)
  | [] => return []
  | v :: vs => do
    let v ← liftUnary rule v
    return v :: (← liftUnaryAll rule vs)
end

/-- An equation of two values that are no equations themselves. -/
def equate : Value → Value → Except Fault Value
  | .equation .., _ | _, .equation .. => .error .chainedEquals
  | a, b => .ok (.equation a b)

def onExprs (rule : Value → Value → Engine Value) (a b : Expr) : Engine Value :=
  rule (.expr a) (.expr b)

def OperatorAction.run : OperatorAction → List Value → Engine Value
  | equals, [a, b] => equate a b
  | add, [a, b] => liftBinary (onExprs Value.add) a b
  | subtract, [a, b] => liftBinary (onExprs Value.sub) a b
  | multiply, [a, b] => liftBinary (onExprs Value.mul) a b
  | divide, [a, b] => liftBinary (onExprs Value.div) a b
  | modulo, [a, b] => liftBinary (fun a b => Engine.call "mod" [.expr a, .expr b]) a b
  | power, [a, b] => liftBinary (onExprs Value.pow) a b
  | negate, [a] => liftUnary (fun a => Value.neg (.expr a)) a
  | positive, [a] => liftUnary (fun a => return .expr a) a
  | factorial, [a] => liftUnary (fun a => Engine.call "factorial" [.expr a]) a
  | percent, [a] => liftUnary (fun a => Value.div (.expr a) (.expr (.number 100))) a
  | native rule, operands => rule operands
  | _, _ => throw .unsupported

namespace Operator

def binary (symbol name : String) (precedence : Int) (action : OperatorAction) : Operator :=
  ⟨symbol, name, precedence, action, 2, .between, false⟩

def unary (symbol name : String) (precedence : Int) (action : OperatorAction) (fixity : Fixity) :
    Operator :=
  ⟨symbol, name, precedence, action, 1, fixity, false⟩

def initial : OperatorTable :=
  [binary "=" "equals" 1 .equals,
    binary "+" "add" 3 .add,
    binary "-" "subtract" 3 .subtract,
    binary "*" "multiply" 4 .multiply,
    binary "/" "divide" 4 .divide,
    binary "%" "mod" 4 .modulo,
    unary "-" "negate" 5 .negate .before,
    unary "+" "positive" 5 .positive .before,
    { binary "^" "pow" 6 .power with rightAssociative := true },
    unary "!" "factorial" 7 .factorial .after,
    unary "%" "percent" 7 .percent .after].map fun op => ((op.symbol, op.fixity), op)

end Operator
end ExactAlgebra.Reader
