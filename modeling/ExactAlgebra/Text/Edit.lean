import ExactAlgebra.Text.Blank

/-! Cutting and replacing in plain text. -/
namespace ExactAlgebra.Text

/-- What follows `pattern` when the text begins with it. -/
def dropPattern? : List Char → List Char → Option (List Char)
  | [], s => some s
  | _ :: _, [] => none
  | p :: ps, c :: cs => if p == c then dropPattern? ps cs else none

/-- Replaces `old` wherever it stands, from left to right; `skip` characters of an occurrence
already replaced are passed over. -/
def replaceFrom (old new : List Char) : Nat → List Char → List Char
  | _, [] => []
  | skip + 1, _ :: cs => replaceFrom old new skip cs
  | 0, c :: cs =>
    if old.isPrefixOf (c :: cs) then new ++ replaceFrom old new (old.length - 1) cs
    else c :: replaceFrom old new 0 cs

/-- Puts `new` for every `old`. An empty `old` stands before every character and at the end. -/
def replaceAll (old new s : List Char) : List Char :=
  if old.isEmpty then new ++ s.flatMap (· :: new) else replaceFrom old new 0 s

def splitAtChar (separator : Char) : List Char → List (List Char)
  | [] => [[]]
  | c :: cs =>
    match splitAtChar separator cs with
    | [] => [[]]
    | piece :: pieces => if c == separator then [] :: piece :: pieces else (c :: piece) :: pieces

/-- The non-blank pieces between commas that stand outside of all brackets, without the blanks
around them. A closing bracket that closes nothing is passed over. -/
def splitTopLevel (s : List Char) : List (List Char) :=
  let (pieces, last, _) := s.foldl
    (fun (pieces, current, depth) c =>
      if c == ',' && depth == 0 then (current.reverse :: pieces, [], depth)
      else if c == '(' || c == '[' || c == '{' then (pieces, c :: current, depth + 1)
      else if c == ')' || c == ']' || c == '}' then (pieces, c :: current, depth - 1)
      else (pieces, c :: current, depth))
    (([], [], 0) : List (List Char) × List Char × Nat)
  ((last.reverse :: pieces).reverse.map strip).filter (!·.isEmpty)

end ExactAlgebra.Text
