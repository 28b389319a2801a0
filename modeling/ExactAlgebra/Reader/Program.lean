import ExactAlgebra.Reader.Token
import ExactAlgebra.Reader.Operator

/-! Postfix programs. Tokens are put in postfix order by precedence climbing; the contents of each
group are read on their own. Every step uses up one unit of a work limit that grows with the
number of tokens. -/
namespace ExactAlgebra.Reader

inductive Instruction
  | number (text : String)
  | name (text : String) (position : Nat)
  | operator (op : Operator)
  | call (name : String) (count : Int) (position : Nat)
  | vector (count : Int)
  /-- An instruction that no machine knows. -/
  | unknown (kind : String)

abbrev Program := List Instruction

/-- What reading depends on: the operators, and which names are functions. -/
structure Grammar where
  operators : OperatorTable
  isFunction : String → Bool

namespace Grammar

def operator? (grammar : Grammar) (symbol : String) (fixity : Fixity) : Option Operator :=
  grammar.operators.lookup (symbol, fixity)

def required (grammar : Grammar) (symbol : String) : Except Fault Operator :=
  match grammar.operator? symbol .between with
  | some op => .ok op
  | none => .error .unsupported

def splitCommas : List Token → List (List Token)
  | [] => [[]]
  | t :: ts =>
    match splitCommas ts with
    | [] => [[]]
    | piece :: pieces => if t.isComma then [] :: piece :: pieces else (t :: piece) :: pieces

/-- The arguments of a group: none when it is empty, else the pieces between commas, none of
which may be empty. -/
def arguments (tokens : List Token) : Except Fault (List (List Token)) :=
  if tokens.isEmpty then .ok []
  else
    let pieces := splitCommas tokens
    if pieces.any (·.isEmpty) then .error .emptyArgument else .ok pieces

/-- Operators that stand after their operand. One that can also stand between operands does so
when an operand follows. -/
def takePostfix (grammar : Grammar) (program : Program) : List Token → Program × List Token
  | .operator symbol position :: rest =>
    match grammar.operator? symbol .after with
    | none => (program, .operator symbol position :: rest)
    | some op =>
      let followed := (rest.head?.map Token.startsOperand).getD false
      if (grammar.operator? symbol .between).isSome && followed then
        (program, .operator symbol position :: rest)
      else grammar.takePostfix (program ++ [.operator op]) rest
  | tokens => (program, tokens)

mutual
/-- An operand and all operators that bind at least as tightly as `least`. -/
def expression (grammar : Grammar) : Nat → Int → List Token →
    Except Fault (Program × List Token)
  | 0, _, _ => .error .unsupported
  | n + 1, least, tokens => do
    let (program, rest) ← grammar.operand n tokens
    grammar.climb n least program rest

/-- Goes on with operators after a finished operand. -/
def climb (grammar : Grammar) : Nat → Int → Program → List Token →
    Except Fault (Program × List Token)
  | 0, _, _, _ => .error .unsupported
  | _ + 1, _, program, [] => .ok (program, [])
  | n + 1, least, program, token :: rest => do
    match token with
    | .operator symbol position =>
      match grammar.operator? symbol .between with
      | none => return (program, .operator symbol position :: rest)
      | some op =>
        if op.precedence < least then return (program, .operator symbol position :: rest)
        else
          let next := if op.rightAssociative then op.precedence else op.precedence + 1
          let (right, rest) ← grammar.expression n next rest
          grammar.climb n least (program ++ right ++ [.operator op]) rest
    | .comma position => return (program, .comma position :: rest)
    | token =>
      let times ← grammar.required "*"
      if times.precedence < least then return (program, token :: rest)
      else
        let (right, rest) ← grammar.expression n (times.precedence + 1) (token :: rest)
        grammar.climb n least (program ++ right ++ [.operator times]) rest

/-- One operand with the operators before and after it. -/
def operand (grammar : Grammar) : Nat → List Token → Except Fault (Program × List Token)
  | 0, _ => .error .unsupported
  | _ + 1, [] => .error .unexpectedEnd
  | n + 1, .operator symbol position :: rest =>
    match grammar.operator? symbol .before with
    | none => .error (.unexpectedOperator symbol position)
    | some op => do
      let (program, rest) ← grammar.expression n op.precedence rest
      return (program ++ [.operator op], rest)
  | n + 1, token :: rest => do
    let (program, rest) ← grammar.primary n token rest
    return grammar.takePostfix program rest

/-- A number, a name, a call or a group. -/
def primary (grammar : Grammar) : Nat → Token → List Token → Except Fault (Program × List Token)
  | 0, _, _ => .error .unsupported
  | n + 1, token, rest =>
    match token with
    | .number text _ => .ok ([.number text], rest)
    | .name text position =>
      if grammar.isFunction text then
        match rest with
        | .group bracket start children :: rest =>
          if bracket == "(" then do
            let args ← arguments children
            let programs ← args.mapM (grammar.complete n)
            return (programs.flatten ++ [.call text args.length position], rest)
          else .ok ([.name text position], .group bracket start children :: rest)
        | .number .. :: _ | .name .. :: _ => do
          let power ← grammar.required "^"
          let (program, rest) ← grammar.expression n power.precedence rest
          return (program ++ [.call text 1 position], rest)
        | rest => .ok ([.name text position], rest)
      else .ok ([.name text position], rest)
    | .group bracket position children => do
      let elements ← arguments children
      if bracket == "(" then
        match elements with
        | [element] => return (← grammar.complete n element, rest)
        | _ => throw (.commaInGroup position)
      else
        let programs ← elements.mapM (grammar.complete n)
        return (programs.flatten ++ [.vector elements.length], rest)
    | token => .error (.unexpectedSymbol token.text token.position)

def complete (grammar : Grammar) : Nat → List Token → Except Fault Program
  | 0, _ => .error .unsupported
  | n + 1, tokens =>
    if tokens.isEmpty then .error .emptyExpression
    else do
      let (program, rest) ← grammar.expression n 0 tokens
      match rest with
      | [] => return program
      | token :: _ => throw (.unexpectedToken token.text token.position)
end

def workLimit (tokens : List Token) : Nat := 8 * (Token.weightAll tokens + 2)

def program (grammar : Grammar) (tokens : List Token) : Except Fault Program :=
  grammar.complete (workLimit tokens) tokens

end Grammar
end ExactAlgebra.Reader
