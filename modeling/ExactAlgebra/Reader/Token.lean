import ExactAlgebra.Reader.Lexeme

/-! Tokens. A bracket pair becomes one group that holds the tokens between the brackets. -/
namespace ExactAlgebra.Reader
open Text

/-- A token with its position in the text, counted in characters. -/
inductive Token
  | number (text : String) (position : Nat)
  | name (text : String) (position : Nat)
  | operator (symbol : String) (position : Nat)
  | comma (position : Nat)
  | group (bracket : String) (position : Nat) (children : List Token)
deriving Inhabited, Repr

namespace Token

/-- The text of a token; of a group, its opening bracket. -/
def text : Token → String
  | number text _ | name text _ => text
  | operator symbol _ => symbol
  | comma _ => ","
  | group bracket _ _ => bracket

def position : Token → Nat
  | number _ position | name _ position | operator _ position | comma position
  | group _ position _ => position

def isComma : Token → Bool
  | comma _ => true
  | _ => false

def startsOperand : Token → Bool
  | number .. | name .. | group .. => true
  | _ => false

mutual
/-- The number of tokens, those inside groups included. -/
def weight : Token → Nat
  | group _ _ children => weightAll children + 1
  | _ => 1

def weightAll : List Token → Nat
  | [] => 0
  | t :: ts => t.weight + weightAll ts
end

mutual
def described : Token → String
  | number text position => "Token(NUMBER " ++ quoted text ++ "@" ++ toString position ++ ")"
  | name text position => "Token(IDENT " ++ quoted text ++ "@" ++ toString position ++ ")"
  | operator symbol position =>
    "Token(OPERATOR " ++ quoted symbol ++ "@" ++ toString position ++ ")"
  | comma position => "Token(COMMA ','@" ++ toString position ++ ")"
  | group bracket _ children =>
    "Token(GROUP " ++ quoted bracket ++ " " ++ bracketed (describedAll children) ++ ")"

def describedAll : List Token → List String
  | [] => []
  | t :: ts => described t :: describedAll ts
end

end Token

structure Lexicon where
  /-- Opening and closing brackets. -/
  brackets : List (String × String)
  /-- Operator symbols, the longest first. -/
  symbols : List String

/-- A group that is still open: its bracket, where it stands, the bracket that closes it, and the
tokens before it, backwards. -/
structure OpenGroup where
  bracket : String
  position : Nat
  closer : String
  before : List Token

/-- The first symbol with which the text begins. -/
def Lexicon.symbolAt? (lexicon : Lexicon) (s : List Char) : Option String :=
  lexicon.symbols.find? fun symbol => !symbol.isEmpty && symbol.toList.isPrefixOf s

/-- A number begins here: a digit, or a point before a digit. -/
def startsNumber (c : Char) (rest : List Char) : Bool :=
  isDigit c || (c == '.' && (rest.head?.map isDigit).getD false)

/-- Reads tokens from a position on. `done` holds the tokens of the innermost open group,
backwards, and `groups` the open groups, innermost first; `skip` characters belong to a token
already read. -/
def Lexicon.scan (lexicon : Lexicon) (skip position : Nat) (done : List Token)
    (groups : List OpenGroup) : List Char → Except Fault (List Token)
  | [] =>
    match groups with
    | [] => .ok done.reverse
    | group :: _ => .error (.unclosedBracket group.bracket group.position)
  | c :: cs =>
    let next := position + 1
    match skip with
    | skip + 1 => lexicon.scan skip next done groups cs
    | 0 =>
      let char := String.singleton c
      if isBlank c then lexicon.scan 0 next done groups cs
      else if startsNumber c cs then
        match takeNumber? (c :: cs) with
        | some (number, _) =>
          lexicon.scan (number.length - 1) next (.number (String.ofList number) position :: done)
            groups cs
        | none => .error .unsupported
      else if isLetter c || c == '_' then
        match takeName? (c :: cs) with
        | some (name, _) =>
          lexicon.scan (name.length - 1) next (.name (String.ofList name) position :: done)
            groups cs
        | none => .error .unsupported
      else if c == ',' then lexicon.scan 0 next (.comma position :: done) groups cs
      else
        match lexicon.brackets.lookup char with
        | some closer => lexicon.scan 0 next [] (⟨char, position, closer, done⟩ :: groups) cs
        | none =>
          if lexicon.brackets.any (·.2 == char) then
            match groups with
            | [] => .error (.unmatchedBracket char position)
            | group :: groups =>
              if group.closer == char then
                lexicon.scan 0 next
                  (.group group.bracket group.position done.reverse :: group.before) groups cs
              else .error (.mismatchedBracket group.closer char position)
          else
            match lexicon.symbolAt? (c :: cs) with
            | some symbol =>
              lexicon.scan (symbol.length - 1) next (.operator symbol position :: done) groups cs
            | none => .error (.unexpectedCharacter char position)

def Lexicon.tokenize (lexicon : Lexicon) (text : String) : Except Fault (List Token) :=
  lexicon.scan 0 0 [] [] text.toList

end ExactAlgebra.Reader
