import ExactAlgebra.Session.Answer
import ExactAlgebra.Session.Registration

/-! One line of input: a definition, a system, an equation, or an expression to be evaluated. -/
namespace ExactAlgebra.CommandLine

inductive Report
  | evaluated (answer : EvalAnswer)
  | solved (answer : SolveAnswer)
  /-- A value was stored under a name. -/
  | stored (name : String) (value : Value)
  /-- A function was defined; its signature and its body. -/
  | defined (signature body : String)
  | rejected (message : String) (code : Option String)

namespace Report

def isSuccess : Report → Bool
  | evaluated (.success ..) | solved (.roots ..) | solved (.verdict _) | solved (.solution _)
  | stored .. | defined .. => true
  | _ => false

def definitionRecord (name result : String) : Datum :=
  .record [("ok", .flag true), ("type", .text "definition"), ("name", .text name),
    ("result", .text result)]

/-- The answer as a record; a stored value has to be written out for it. -/
def document : Report → Except Fault Datum
  | evaluated answer => return .record (answer.fields ++ [("type", .text "value")])
  | solved answer => return .record answer.fields
  | stored name value => do return definitionRecord name (← value.shown)
  | defined signature body => return definitionRecord signature body
  | rejected message code =>
    return .record
      ([("ok", .flag false), ("error", .text message)] ++ optionalField "error_code" code)

/-- The lines for roots; approximations are shown where they say more. -/
def rootLines (exact : List String) (approximations : List (Option String)) : List String :=
  if exact.isEmpty then ["No solutions found"]
  else
    let known := approximations.filterMap id
    let first := "Exact: " ++ String.intercalate ", " exact
    if known.isEmpty || known == exact then [first]
    else [first, "Approx: " ++ String.intercalate ", " known]

/-- The lines for a value; a decimal is shown where it says more. -/
def valueLines (result : String) (approximation : Option String) : List String :=
  match approximation with
  | some decimal =>
    if decimal.isEmpty || decimal == result then [result] else [result, "Decimal: " ++ decimal]
  | none => [result]

def lines : Report → Except Fault (List String)
  | evaluated (.success result approximation _) => return valueLines result approximation
  | evaluated (.failure cause) | solved (.failure _ cause) => return ["Error: " ++ cause.message]
  | solved (.roots exact approximations) => return rootLines exact approximations
  | solved (.verdict holds) => return [SolveAnswer.verdictText holds]
  | solved (.solution values) => return values.map fun (name, value) => name ++ " = " ++ value
  | stored name value => do return [name ++ " := " ++ (← value.shown)]
  | defined signature body => return [signature ++ " := " ++ body]
  | rejected message _ => return ["Error: " ++ message]

def printed (report : Report) (asJson : Bool) : Except Fault String := do
  let document ← report.document
  let lines ← if asJson then pure [document.json] else report.lines
  return String.join (lines.map (· ++ "\n"))

end Report

open Text

/-- A name with or without parameters and the text that defines it. -/
structure Definition where
  name : String
  params : Option (List Char)
  body : List Char

def takeParams (s : List Char) : Option (List Char) × List Char :=
  match s with
  | '(' :: rest =>
    match rest.dropWhile (· != ')') with
    | _ :: after => (some (rest.takeWhile (· != ')')), after)
    | [] => (none, s)
  | s => (none, s)

/-- The definition that a line is; its body is one line and not empty. -/
def definition? (s : List Char) : Option Definition := do
  let (name, rest) ← takeName? (stripLeft s)
  let (params, rest) := takeParams (stripLeft rest)
  let rest ← dropPattern? [':', '='] (stripLeft rest)
  let body := stripLeft rest
  if body.isEmpty || body.contains '\n' then none
  else some ⟨String.ofList name, params, body⟩

/-- The small ASCII letter that a character is when case is ignored. The dotted and the dotless i,
the long s and the Kelvin sign are such letters too. -/
def foldCase (c : Char) : Char :=
  match c with
  | 'İ' | 'ı' => 'i'
  | 'ſ' => 's'
  | '\u212a' => 'k'
  | c => c.toLower

/-- The identifier at the front of the text when case is ignored, and what follows it. -/
def takeFoldedName? (s : List Char) : Option (List Char × List Char) := do
  let (name, _) ← takeName? (s.map foldCase)
  return (s.take name.length, s.drop name.length)

/-- The unknown at the end of a line after the word for finding, in any case of letters. -/
def findClause? (s : List Char) : Option String := do
  match s with
  | [] => none
  | c :: rest =>
    if c != ',' && !isBlank c then none
    else
      let word := stripLeft rest
      if (word.take 4).map foldCase != "find".toList then none
      else
        let after := word.drop 4
        let (name, final) ← takeFoldedName? (stripLeft after)
        if (stripLeft after).length < after.length && (stripLeft final).isEmpty then
          some (String.ofList name)
        else none

def splitFind : List Char → List Char × Option String
  | [] => ([], none)
  | c :: rest =>
    match findClause? (c :: rest) with
    | some name => ([], some name)
    | none =>
      let (before, name) := splitFind rest
      (c :: before, name)

def paramNames (s : List Char) : List String :=
  (((splitAtChar ',' s).map strip).filter (!·.isEmpty)).map String.ofList

/-- A fault as a report, except that an unsupported computation stays a fault. -/
def orRejected (x : Machine (Session × Report)) (session : Session) :
    Machine (Session × Report) :=
  tryCatch x fun fault =>
    if fault.kind = .unsupported then throw fault
    else return (session, .rejected fault.message (some fault.code))

/-- Stores the value of a text under a name; an equation is no value to store. -/
def defineVariable (session : Session) (name body : String) : Machine (Session × Report) :=
  orRejected (do
    let value ← session.read body
    match value with
    | .equation _ _ => throw .unsupported
    | value =>
      let (session, value) ← session.setVariable name (.value value)
      return (session, .stored name value)) session

def defineFunction (session : Session) (name body : String) (params : List String) :
    Machine (Session × Report) :=
  match params.find? (!isName ·) with
  | some param => return (session, .rejected ("Invalid parameter name '" ++ param ++ "'") none)
  | none => orRejected (do
      let (session, _) ← session.defineFunction name body params
      let signature := name ++ "(" ++ String.intercalate ", " params ++ ")"
      return (session, .defined signature (String.ofList (strip body.toList)))) session

def request (session : Session) (s : List Char) : Machine Report := do
  let (s, unknown) := splitFind s
  let text := String.ofList s
  match (splitTopLevel s).filter (·.contains '='), unknown with
  | _ :: _ :: _, unknown => return .solved (← session.solveSystem text unknown)
  | [], none => return .evaluated (← session.evaluate text [])
  | _, unknown => return .solved (← session.solveEquation text unknown)

def dispatch (session : Session) (line : String) : Machine (Session × Report) := do
  let s := strip line.toList
  match definition? s with
  | some ⟨name, none, body⟩ => defineVariable session name (String.ofList body)
  | some ⟨name, some params, body⟩ =>
    defineFunction session name (String.ofList body) (paramNames params)
  | none => return (session, ← request session s)

end ExactAlgebra.CommandLine
