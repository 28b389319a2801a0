import ExactAlgebra.Datum.Basic
import ExactAlgebra.Text.Digit

/-! Message templates. A percent sign, an optional key in parentheses, flags, a width, a precision
and a letter stand for an argument; two percent signs stand for one. Arguments come in a row or, by
key, out of one record. Missing arguments are refused, and so are arguments in a row that are left
over. -/
namespace ExactAlgebra.Log

inductive Supply
  | row (rest : List Datum)
  /-- A record, with what the next directive shows: the record itself at first, then the value of
  the last key, each once. -/
  | keyed (fields : List (String × Datum)) (pending : Option Datum)

namespace Supply

/-- The arguments of a message; a single record that is not empty is looked up by key. -/
def ofArguments : List Datum → Supply
  | [.record (field :: fields)] => keyed (field :: fields) (some (.record (field :: fields)))
  | args => row args

def next : Supply → Except Fault (Datum × Supply)
  | row (arg :: rest) => .ok (arg, row rest)
  | keyed fields (some arg) => .ok (arg, keyed fields none)
  | _ => .error .unsupported

def select (key : String) : Supply → Except Fault Supply
  | keyed fields _ =>
    match fields.lookup key with
    | some value => .ok (keyed fields (some value))
    | none => .error .unsupported
  | row _ => .error .unsupported

def isSpent : Supply → Bool
  | row rest => rest.isEmpty
  | keyed .. => true

end Supply

structure Directive where
  left : Bool := false
  zeros : Bool := false
  plus : Bool := false
  space : Bool := false
  marked : Bool := false
  width : Nat := 0
  precision : Option Nat := none

/-- Reads a key up to the parenthesis that closes it; `depth` more are open. -/
def takeKey (key : List Char) : Nat → List Char → Except Fault (String × List Char)
  | _, [] => .error .unsupported
  | depth, '(' :: s => takeKey ('(' :: key) (depth + 1) s
  | 0, ')' :: s => .ok (String.ofList key.reverse, s)
  | depth + 1, ')' :: s => takeKey (')' :: key) depth s
  | depth, c :: s => takeKey (c :: key) depth s

def takeFlags (d : Directive) : List Char → Directive × List Char
  | '-' :: s => takeFlags { d with left := true } s
  | '0' :: s => takeFlags { d with zeros := true } s
  | '+' :: s => takeFlags { d with plus := true } s
  | ' ' :: s => takeFlags { d with space := true } s
  | '#' :: s => takeFlags { d with marked := true } s
  | s => (d, s)

def maxSpan : Nat := 2147483647

def checkSpan (n : Int) : Except Fault Unit :=
  if n.natAbs ≤ maxSpan then .ok () else .error .unsupported

/-- Reads a number: a star stands for the next argument, no digits stand for zero. -/
def takeNumber (supply : Supply) : List Char → Except Fault (Int × Supply × List Char)
  | '*' :: s => do
    let (arg, supply) ← supply.next
    let n ← arg.integer
    checkSpan n
    return (n, supply, s)
  | s => do
    let n := Text.naturalOf (s.takeWhile Char.isDigit)
    checkSpan n
    return (n, supply, s.dropWhile Char.isDigit)

/-- Passes over one mark of size, which changes nothing. -/
def dropSize : List Char → List Char
  | 'h' :: s | 'l' :: s | 'L' :: s => s
  | s => s

/-- Reads key, flags, width, precision and size. A negative width asks for the left side, a negative
precision is none. -/
def takeDirective (supply : Supply) (s : List Char) :
    Except Fault (Directive × Supply × List Char) := do
  let (supply, s) ← match s with
    | '(' :: s => do
      let (key, s) ← takeKey [] 0 s
      pure (← supply.select key, s)
    | s => pure (supply, s)
  let (d, s) := takeFlags {} s
  let (width, supply, s) ← takeNumber supply s
  let d := { d with left := d.left || width < 0, width := width.natAbs }
  match s with
  | '.' :: s => do
    let (precision, supply, s) ← takeNumber supply s
    return ({ d with precision := some precision.toNat }, supply, dropSize s)
  | s => return (d, supply, dropSize s)

def Directive.sign (d : Directive) (negative : Bool) : String :=
  if negative then "-" else if d.plus then "+" else if d.space then " " else ""

/-- Fills up to the width; zeros go between the front and the body. -/
def Directive.pad (d : Directive) (front body : String) (numeric : Bool) : String :=
  let missing := d.width - (front.length + body.length)
  let fill (c : Char) : String := String.ofList (List.replicate missing c)
  if d.left then front ++ body ++ fill ' '
  else if d.zeros && numeric then front ++ fill '0' ++ body
  else fill ' ' ++ front ++ body

/-- An integer by the digits of its absolute value, with a mark of its base where one is asked
for. -/
def Directive.integer (d : Directive) (n : Int) (mark : String) (digits : List Char) : String :=
  let least := d.precision.getD 0
  let body := String.ofList (List.replicate (least - digits.length) '0' ++ digits)
  d.pad (d.sign (n < 0) ++ (if d.marked then mark else "")) body true

/-- A number whose text may begin with a minus sign. -/
def Directive.real (d : Directive) (text : String) : String :=
  match text.toList with
  | '-' :: body => d.pad (d.sign true) (String.ofList body) true
  | _ => d.pad (d.sign false) text true

def Directive.text (d : Directive) (text : String) : String :=
  let cut := match d.precision with
    | some n => String.ofList (text.toList.take n)
    | none => text
  d.pad "" cut false

def Directive.places (d : Directive) : Nat := d.precision.getD 6

/-- The ending of a number whose zeros stay, or, unless marked, of one whose zeros go. -/
def Directive.ending (d : Directive) (unmarked : Binary64.Ending) : Binary64.Ending :=
  if d.marked then .full else unmarked

def upper (text : String) : String := String.ofList (text.toList.map Char.toUpper)

/-- A datum as one character: a text of length one or a code point. -/
def character : Datum → Except Fault Char
  | .text value =>
    match value.toList with
    | [c] => .ok c
    | _ => .error .unsupported
  | arg => do
    let n ← arg.integer
    if 0 ≤ n && n.toNat.isValidChar then return Char.ofNat n.toNat else .error .unsupported

def Directive.apply (d : Directive) (letter : Char) (arg : Datum) : Except Fault String :=
  let fixed := Binary64.fixed (d.ending .plain) d.places
  let significant := Binary64.significantWith (d.ending .trimmed) d.places
  let scientific := Binary64.scientific (d.ending .plain) d.places
  match letter with
  | 's' => do return d.text (← arg.shown)
  | 'r' => do return d.text (← arg.described)
  | 'a' => do return d.text (Text.asciiOnly (← arg.described))
  | 'd' | 'i' | 'u' => do
    let n ← arg.truncated
    return d.integer n "" (← Datum.integerText n.natAbs).toList
  | 'x' => do
    let n ← arg.integer
    return d.integer n "0x" (Nat.toDigits 16 n.natAbs)
  | 'X' => do
    let n ← arg.integer
    return d.integer n "0X" ((Nat.toDigits 16 n.natAbs).map Char.toUpper)
  | 'o' => do
    let n ← arg.integer
    return d.integer n "0o" (Nat.toDigits 8 n.natAbs)
  | 'f' => do return d.real (fixed (← arg.measure))
  | 'F' => do return d.real (upper (fixed (← arg.measure)))
  | 'g' => do return d.real (significant (← arg.measure))
  | 'G' => do return d.real (upper (significant (← arg.measure)))
  | 'e' => do return d.real (scientific (← arg.measure))
  | 'E' => do return d.real (upper (scientific (← arg.measure)))
  | 'c' => do return d.pad "" (String.ofList [← character arg]) false
  | _ => .error .unsupported

/-- Fills arguments into a template; the fuel bounds its length. -/
def fillWithin : Nat → List Char → Supply → Except Fault String
  | _, [], supply => if supply.isSpent then .ok "" else .error .unsupported
  | 0, _ :: _, _ => .error .unsupported
  | fuel + 1, '%' :: '%' :: s, supply => do return "%" ++ (← fillWithin fuel s supply)
  | fuel + 1, '%' :: s, supply => do
    let (d, supply, s) ← takeDirective supply s
    match s with
    | [] => throw .unsupported
    | letter :: s =>
      let (arg, supply) ← supply.next
      let shown ← d.apply letter arg
      return shown ++ (← fillWithin fuel s supply)
  | fuel + 1, c :: s, supply => do return String.ofList [c] ++ (← fillWithin fuel s supply)

/-- The message of a template; without arguments the template is the message. -/
def message (template : String) (args : List Datum) : Except Fault String :=
  if args.isEmpty then .ok template
  else fillWithin template.length template.toList (.ofArguments args)

end ExactAlgebra.Log
