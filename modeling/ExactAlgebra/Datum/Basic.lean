import ExactAlgebra.Binary64.Shortest
import ExactAlgebra.Text.Quoted

/-! Plain data: what a setting holds, what a log line shows and what an answer is made of. Where a
number is called for, a flag counts as zero or one, and a datum of any other kind is refused. -/
namespace ExactAlgebra

inductive Datum
  | absent
  | flag (value : Bool)
  | whole (value : Int)
  | real (value : Float)
  | text (value : String)
  | list (items : List Datum)
  | record (fields : List (String × Datum))
deriving Inhabited

namespace Datum

def texts (values : List String) : Datum := list (values.map text)

/-- The datum counts as a yes: it is there, and it is neither zero nor empty. -/
def isTrue : Datum → Bool
  | absent => false
  | flag value => value
  | whole value => value ≠ 0
  | real value => value != 0
  | text value => !value.isEmpty
  | list items => !items.isEmpty
  | record fields => !fields.isEmpty

/-- The decimal text of an integer, unless it has too many digits. -/
def integerText (n : Int) : Except Fault String :=
  if Rational.isWritable n then .ok (toString n) else .error .unsupported

mutual
/-- The text of a datum with its kind visible: texts stand in quotes. -/
def described : Datum → Except Fault String
  | absent => .ok "None"
  | flag value => .ok (if value then "True" else "False")
  | whole value => integerText value
  | real value => .ok (Binary64.shortest value)
  | text value => .ok (Text.quoted value)
  | list items => do return Text.bracketed (← describedItems items)
  | record fields => do
    return "\x7b" ++ String.intercalate ", " (← describedFields fields) ++ "\x7d"

def describedItems : List Datum → Except Fault (List String)
  | [] => return []
  | item :: items => do
    let first ← described item
    return first :: (← describedItems items)

def describedFields : List (String × Datum) → Except Fault (List String)
  | [] => return []
  | (key, value) :: fields => do
    let first ← described value
    return (Text.quoted key ++ ": " ++ first) :: (← describedFields fields)
end

def shown : Datum → Except Fault String
  | text value => .ok value
  | datum => datum.described

/-- The datum as an integer; a number of fractional type is none, whatever its value. -/
def integer : Datum → Except Fault Int
  | flag value => .ok (if value then 1 else 0)
  | whole value => .ok value
  | _ => .error .unsupported

def truncated : Datum → Except Fault Int
  | real value =>
    match Binary64.toRat? value with
    | some a => .ok (Rational.truncate a)
    | none => .error .unsupported
  | datum => datum.integer

def measure : Datum → Except Fault Float
  | flag value => .ok (if value then 1 else 0)
  | whole value => Binary64.ofRat value
  | real value => .ok value
  | _ => .error .unsupported

/-- Where the datum stands in the order of numbers, seen from `a`; what is no number at all, though
of a number's kind, stands nowhere. -/
def compareTo (a : Rat) : Datum → Except Fault (Option Ordering)
  | real value =>
    match Binary64.toRat? value with
    | some b => .ok (some (compareOfLessAndEq b a))
    | none => .ok (if value.isNaN then none else if value < 0 then some .lt else some .gt)
  | datum => do return some (compareOfLessAndEq ((← datum.integer) : Rat) a)

def isBelow (a : Rat) (datum : Datum) : Except Fault Bool := do
  return (← datum.compareTo a) == some .lt

def isAbove (a : Rat) (datum : Datum) : Except Fault Bool := do
  return (← datum.compareTo a) == some .gt

def exceeds (a b : Datum) : Except Fault Bool :=
  match b with
  | real value =>
    match Binary64.toRat? value with
    | some bound => a.isAbove bound
    | none => do
      let place ← a.compareTo 0
      return value < 0 && match a with
        | real other => other.isFinite || 0 < other
        | _ => place.isSome
  | b => do a.isAbove (← b.integer)

/-- The greatest integer that does not exceed the datum, where there is one. -/
def floor? : Datum → Except Fault (Option Int)
  | real value => .ok ((Binary64.toRat? value).map Rat.floor)
  | datum => do return some (← datum.integer)

end Datum
end ExactAlgebra
