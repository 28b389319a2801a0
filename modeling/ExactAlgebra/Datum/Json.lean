import ExactAlgebra.Datum.Basic

/-! The JSON text of plain data: two blanks for each level, one item on a line, and only quotes,
backslashes and control characters escaped. -/
namespace ExactAlgebra.Datum

def escapeChar (c : Char) : List Char :=
  match c with
  | '"' => ['\\', '"']
  | '\\' => ['\\', '\\']
  | '\n' => ['\\', 'n']
  | '\r' => ['\\', 'r']
  | '\t' => ['\\', 't']
  | '\x08' => ['\\', 'b']
  | '\x0c' => ['\\', 'f']
  | c => if c.toNat < 32 then '\\' :: 'u' :: Text.hexPadded 4 c.toNat else [c]

def jsonString (s : String) : String :=
  "\"" ++ String.ofList (s.toList.flatMap escapeChar) ++ "\""

def block (opening closing : String) (level : Nat) (items : List String) : String :=
  if items.isEmpty then opening ++ closing
  else
    let margin (n : Nat) : String := "\n" ++ String.ofList (List.replicate (2 * n) ' ')
    opening ++ margin (level + 1) ++ String.intercalate ("," ++ margin (level + 1)) items ++
      margin level ++ closing

mutual
def jsonAt (level : Nat) : Datum → String
  | absent => "null"
  | flag value => if value then "true" else "false"
  | whole value => toString value
  | real value => Binary64.shortest value
  | text value => jsonString value
  | list items => block "[" "]" level (jsonItems (level + 1) items)
  | record fields => block "\x7b" "\x7d" level (jsonFields (level + 1) fields)

def jsonItems (level : Nat) : List Datum → List String
  | [] => []
  | item :: items => jsonAt level item :: jsonItems level items

def jsonFields (level : Nat) : List (String × Datum) → List String
  | [] => []
  | (key, value) :: fields =>
    (jsonString key ++ ": " ++ jsonAt level value) :: jsonFields level fields
end

def json (datum : Datum) : String := datum.jsonAt 0

end ExactAlgebra.Datum
