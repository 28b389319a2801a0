import ExactAlgebra.Expr.Layout
import ExactAlgebra.Text.Quoted

/-! What a text evaluates to: an expression, an equation, or a list of such values. -/
namespace ExactAlgebra

inductive Value
  | expr (e : Expr)
  | equation (left right : Value)
  | list (items : List Value)
deriving Inhabited

structure Equation where
  left : Expr
  right : Expr

namespace Value

def toExpr : Value → Except Fault Expr
  | expr e => .ok e
  | _ => .error .unsupported

def toExprs (values : List Value) : Except Fault (List Expr) := values.mapM toExpr

/-- The value can be copied as a whole, which a list cannot. -/
def isCopyable : Value → Bool
  | expr e => e.isCopyable
  | equation left right => isCopyable left && isCopyable right
  | list _ => false

mutual
/-- The value can be shown as a copy, a list item by item. -/
def isShowable : Value → Bool
  | list items => allShowable items
  | v => v.isCopyable

def allShowable : List Value → Bool
  | [] => true
  | v :: vs => isShowable v && allShowable vs
end

/-- The value as an argument of a call that is left unevaluated. -/
def toArgument : Value → Expr
  | expr e => e
  | v => .foreign v.isCopyable

def copyArgument (v : Value) : Except Fault Expr :=
  if v.isCopyable then .ok v.toArgument else .error .unsupported

def ofExprs (es : List Expr) : Value := list (es.map expr)

/-- Items between parentheses; a single one is followed by a comma. -/
def tuple : List String → String
  | [item] => "(" ++ item ++ ",)"
  | items => "(" ++ String.intercalate ", " items ++ ")"

def isList : Value → Bool
  | list _ => true
  | _ => false

mutual
/-- The value as it is written inside another one: with its kind, except for lists. -/
def described : Value → Except Fault String
  | expr e => do return "ExprNode(" ++ e.shapeName ++ ", " ++ Text.quoted (← e.render) ++ ")"
  | equation left right => do
    let left ← shown left
    return "Equation(" ++ Text.quoted (left ++ "=" ++ (← shown right)) ++ ")"
  | list items => do return tuple (← describedAll items)

def describedAll : List Value → Except Fault (List String)
  | [] => return []
  | v :: vs => do
    let first ← described v
    return first :: (← describedAll vs)

def shown : Value → Except Fault String
  | expr e => e.render
  | equation left right => do
    let left ← shown left
    return left ++ "=" ++ (← shown right)
  | list items => do return tuple (← describedAll items)
end

mutual
def render : Value → Except Fault String
  | list items => do return "[" ++ String.intercalate "," (← renderAll items) ++ "]"
  | v => v.shown

def renderAll : List Value → Except Fault (List String)
  | [] => return []
  | v :: vs => do
    let first ← render v
    return first :: (← renderAll vs)
end

end Value
end ExactAlgebra
