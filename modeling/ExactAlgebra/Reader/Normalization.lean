import ExactAlgebra.Reader.Lexeme
import ExactAlgebra.Settings

/-! Normalising raw text before it is cut into tokens: signs and raised digits become plain
characters, alternative names become the usual ones, and a multiplication sign is put where a
number or a closing parenthesis stands right before an operand. -/
namespace ExactAlgebra.Reader
open Text

def raised : List (Char × Char) :=
  [('⁰', '0'), ('¹', '1'), ('²', '2'), ('³', '3'), ('⁴', '4'), ('⁵', '5'), ('⁶', '6'), ('⁷', '7'),
    ('⁸', '8'), ('⁹', '9'), ('⁻', '-')]

/-- Signs that stand for plain text, in the order in which they are replaced. -/
def signs : List (String × String) :=
  [("π", "pi"), ("√", "sqrt"), ("×", "*"), ("·", "*"), ("÷", "/"), ("−", "-"), ("–", "-"),
    ("**", "^")]

def aliases : List (String × String) :=
  [("ln", "log"), ("arcsin", "asin"), ("arccos", "acos"), ("arctan", "atan"),
    ("arcsinh", "asinh"), ("arccosh", "acosh"), ("arctanh", "atanh"), ("fact", "factorial")]

/-- A run of raised characters as an exponent; a negative one stands in parentheses. -/
def raisedExponent (run : List Char) : List Char :=
  let digits := run.filterMap fun c => raised.lookup c
  if digits.head? == some '-' then '^' :: '(' :: digits ++ [')'] else '^' :: digits

/-- Puts an exponent for every run of raised characters; `run` holds the current one, backwards. -/
def lowerRaised (run : List Char) : List Char → List Char
  | [] => if run.isEmpty then [] else raisedExponent run.reverse
  | c :: cs =>
    if (raised.lookup c).isSome then lowerRaised (c :: run) cs
    else (if run.isEmpty then [] else raisedExponent run.reverse) ++ c :: lowerRaised [] cs

/-- An unsigned number without a power of ten at the front of the text. -/
def takePlainNumber? (s : List Char) : Option (List Char × List Char) :=
  let whole := s.takeWhile isDecimal
  if whole.isEmpty then none
  else
    match s.dropWhile isDecimal with
    | '.' :: rest => some (whole ++ '.' :: rest.takeWhile isDecimal, rest.dropWhile isDecimal)
    | rest => some (whole, rest)

/-- The operand of a root sign: a name or a number, blanks before it allowed. -/
def rootOperand? (s : List Char) : Option (List Char × List Char) :=
  let s := stripLeft s
  match takeName? s with
  | some found => some found
  | none => takePlainNumber? s

/-- Puts a call for every root sign before a name or a number; `skip` characters that belong to
the operand are passed over. -/
def callRoots : Nat → List Char → List Char
  | _, [] => []
  | skip + 1, _ :: cs => callRoots skip cs
  | 0, c :: cs =>
    if c == '√' then
      match rootOperand? cs with
      | some (operand, rest) =>
        "sqrt(".toList ++ operand ++ ')' :: callRoots (cs.length - rest.length) cs
      | none => c :: callRoots 0 cs
    else c :: callRoots 0 cs

def replaceSigns (s : List Char) : List Char :=
  signs.foldl (fun s (old, new) => replaceAll old.toList new.toList s)
    (callRoots 0 (lowerRaised [] s))

def usualName (name : List Char) : List Char :=
  match aliases.lookup (String.ofList name) with
  | some usual => usual.toList
  | none => name

/-- Puts usual names; `skip` characters of a name already written are passed over. -/
def replaceAliases : Nat → List Char → List Char
  | _, [] => []
  | skip + 1, _ :: cs => replaceAliases skip cs
  | 0, c :: cs =>
    match takeName? (c :: cs) with
    | some (name, _) => usualName name ++ replaceAliases (name.length - 1) cs
    | none => c :: replaceAliases 0 cs

def joinsNumber (c : Char) : Bool := startsName c || isDecimal c || c == '.'

/-- Puts a multiplication sign between a number and a name or opening parenthesis, unless another
power of ten follows the number. -/
def multiplyNumbers (before : Option Char) : Nat → List Char → List Char
  | _, [] => []
  | skip + 1, c :: cs => multiplyNumbers (some c) skip cs
  | 0, c :: cs =>
    let number? := if (before.map joinsNumber).getD false then none else takeNumber? (c :: cs)
    match number? with
    | none => c :: multiplyNumbers (some c) 0 cs
    | some (number, rest) =>
      let after := stripLeft rest
      match after with
      | d :: _ =>
        if (startsName d || d == '(') && (Rational.takeExponent? rest).isNone then
          number ++ '*' :: multiplyNumbers (some c) (cs.length - after.length) cs
        else c :: multiplyNumbers (some c) 0 cs
      | [] => c :: multiplyNumbers (some c) 0 cs

def startsOperand (c : Char) : Bool := startsName c || isDecimal c || c == '.' || c == '('

/-- Puts a multiplication sign between a closing parenthesis and an operand. -/
def multiplyGroups : Nat → List Char → List Char
  | _, [] => []
  | skip + 1, _ :: cs => multiplyGroups skip cs
  | 0, c :: cs =>
    if c == ')' then
      match stripLeft cs with
      | d :: rest =>
        if startsOperand d then ')' :: '*' :: multiplyGroups (cs.length - (rest.length + 1)) cs
        else c :: multiplyGroups 0 cs
      | [] => c :: multiplyGroups 0 cs
    else c :: multiplyGroups 0 cs

def writeMultiplication (s : List Char) : List Char := multiplyGroups 0 (multiplyNumbers none 0 s)

/-- Strips blanks and refuses empty or overlong text. -/
def checkInput (limit : Datum) (s : List Char) : Except Fault (List Char) := do
  let s := strip s
  if s.isEmpty then throw .emptyInput
  if ← limit.isBelow s.length then throw (.inputTooLong (← limit.shown))
  return s

/-- One step of normalisation. -/
inductive Preprocessor
  | validate
  | signs
  | aliases
  | impliedMultiplication
  /-- Replaces a piece of text wherever it stands. -/
  | replace (old new : String)

def Preprocessor.run (settings : Settings) (s : List Char) : Preprocessor → Except Fault (List Char)
  | validate => checkInput (settings.get .maxInputLength) s
  | signs => .ok (replaceSigns s)
  | aliases => .ok (replaceAliases 0 s)
  | impliedMultiplication => .ok (writeMultiplication s)
  | replace old new => .ok (replaceAll old.toList new.toList s)

def Preprocessor.initial : List (String × Preprocessor) :=
  [("validate", validate), ("unicode", signs), ("aliases", aliases),
    ("implied_multiplication", impliedMultiplication)]

def normalize (settings : Settings) (steps : List (String × Preprocessor)) (text : String) :
    Except Fault String := do
  let s ← steps.foldlM (fun s (_, step) => step.run settings s) text.toList
  return String.ofList s

end ExactAlgebra.Reader
