import ExactAlgebra.Text.Printable

/-! Quoted text: how a string is shown inside a message. Single quotes stand around it unless
it holds a single quote and no double quote; what cannot be printed is escaped. -/
namespace ExactAlgebra.Text

def hexDigit (n : Nat) : Char :=
  if n < 10 then Char.ofNat (0x30 + n) else Char.ofNat (0x57 + n)

def hexPadded : Nat → Nat → List Char
  | 0, _ => []
  | width + 1, n => hexPadded width (n / 16) ++ [hexDigit (n % 16)]

/-- A character by its code point, in as few of two, four or eight digits as it needs. -/
def codeEscape (c : Char) : List Char :=
  if c.toNat < 0x100 then '\\' :: 'x' :: hexPadded 2 c.toNat
  else if c.toNat < 0x10000 then '\\' :: 'u' :: hexPadded 4 c.toNat
  else '\\' :: 'U' :: hexPadded 8 c.toNat

def escapeChar (quote c : Char) : List Char :=
  if c == quote || c == '\\' then ['\\', c]
  else if c == '\t' then ['\\', 't']
  else if c == '\n' then ['\\', 'n']
  else if c == '\r' then ['\\', 'r']
  else if isPrintable c then [c]
  else codeEscape c

def asciiOnly (text : String) : String :=
  String.ofList (text.toList.flatMap fun c => if c.toNat < 0x80 then [c] else codeEscape c)

def quoteMark (s : List Char) : Char :=
  if s.contains '\'' && !s.contains '"' then '"' else '\''

def quoted (text : String) : String :=
  let s := text.toList
  let mark := quoteMark s
  String.ofList (mark :: s.flatMap (escapeChar mark) ++ [mark])

def bracketed (items : List String) : String :=
  "[" ++ String.intercalate ", " items ++ "]"

end ExactAlgebra.Text
