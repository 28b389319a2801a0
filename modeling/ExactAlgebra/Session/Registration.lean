import ExactAlgebra.Session.Evaluation
import ExactAlgebra.Table

/-! Changes to a session: settings for a while, variables, constants, functions, operators,
preprocessors, brackets and watchers. Names are checked before anything else. -/
namespace ExactAlgebra

/-- Puts an item at a place; a negative place counts from the end. -/
def insertAt (place : Int) (item : α) (items : List α) : List α :=
  let n := if place < 0 then (items.length + place).toNat else place.toNat
  items.take n ++ item :: items.drop n

/-- Settings with those of the given names as they were before. -/
def Settings.restore (after before : Settings) (names : List String) : Settings :=
  names.foldl (fun settings name =>
    match Setting.ofName name with
    | .ok setting => settings.set setting (before.get setting)
    | .error _ => settings) after

namespace Session
open Reader

def checkName (name : String) : Except Fault Unit :=
  if Text.isName name then .ok () else .error (.badName name)

def assign (session : Session) (name : String) (value : Datum) :
    Except Fault Session := do
  return { session with settings := ← session.settings.assign name value }

/-- Changes settings; an unknown name leaves all as they were. -/
def assignAll (session : Session) (values : List (String × Datum)) :
    Except Fault Session := do
  return { session with settings := ← session.settings.assignAll values }

/-- The session inside a scope with other settings. The session goes by the name `self`, which is no
setting of the scope. -/
def enterScope (session : Session) (values : List (String × Datum)) : Except Fault Session :=
  if (values.lookup "self").isSome then .error .unsupported else session.assignAll values

/-- Reads a text with other settings; what is to be done goes by the name `callback`. -/
def readWith (session : Session) (values : List (String × Datum)) (text : String) :
    Machine Value := do
  if (values.lookup "callback").isSome then throw .unsupported
  (← Machine.ofExcept (session.enterScope values)).read text

/-- The session after a scope in which some settings were changed. -/
def leaveScope (session before : Session) (names : List String) : Session :=
  { session with settings := session.settings.restore before.settings names }

def bound (session : Session) : Binding → Machine Value
  | .value v => return v
  | .text s => session.read s
  | .absent | .invalid => throw .unsupported

def setVariable (session : Session) (name : String) (binding : Binding) :
    Machine (Session × Value) := do
  Machine.ofExcept (checkName name)
  let value ← session.bound binding
  return ({ session with bindings := Table.insert name value session.bindings }, value)

/-- Sets a constant; it is not given as a list. -/
def setConstant (session : Session) (name : String) (binding : Binding) :
    Machine (Session × Value) := do
  Machine.ofExcept (checkName name)
  let value ← match binding with
    | .value (.list _) => throw .unsupported
    | binding => session.bound binding
  return ({ session with constants := Table.insert name value session.constants }, value)

def clearVariable (session : Session) (name : String) : Session :=
  { session with bindings := Table.erase name session.bindings }

def clearVariables (session : Session) : Session := { session with bindings := [] }

/-- Adds a function in place of one with the same name. -/
def addFunction (session : Session) (spec : FunctionSpec) : Session :=
  { session with functions := Table.insert spec.name spec session.functions }

def defineFunction (session : Session) (name body : String) (params : List String) :
    Machine (Session × FunctionSpec) := do
  Machine.ofExcept (checkName name)
  Machine.ofExcept (params.forM checkName)
  let value ← session.read body
  let spec : FunctionSpec :=
    ⟨name, params.length, some params.length, .definition params value, false⟩
  return (session.addFunction spec, spec)

/-- Adds a function by a rule. The least number of arguments is one and the greatest is the least,
unless given; with `variadic` there is no greatest. -/
def addRule (session : Session) (name : String) (rule : List Value → Except Fault Value)
    (least greatest : Option Int) (variadic : Bool) : Except Fault (Session × FunctionSpec) := do
  checkName name
  let least := least.getD 1
  let greatest := if variadic then none else some (greatest.getD least)
  let spec : FunctionSpec := ⟨name, least, greatest, .native rule, false⟩
  return (session.addFunction spec, spec)

def removeFunction (session : Session) (name : String) : Session :=
  { session with functions := Table.erase name session.functions }

/-- Adds an operator in place of one with the same symbol and fixity. -/
def addOperator (session : Session) (op : Operator) : Session :=
  { session with operators := Table.insert (op.symbol, op.fixity) op session.operators }

def removePreprocessor (session : Session) (name : String) : Session :=
  { session with preprocessors := Table.erase name session.preprocessors }

/-- Adds a preprocessor at a place or at the end, in place of one with the same name. -/
def addPreprocessor (session : Session) (name : String) (step : Preprocessor)
    (place : Option Int) : Session :=
  let session := session.removePreprocessor name
  let entry := (name, step)
  { session with preprocessors :=
      match place with
      | some place => insertAt place entry session.preprocessors
      | none => session.preprocessors ++ [entry] }

def watchersOf (session : Session) (operation : String) : List String :=
  (session.watchers.lookup operation).getD []

def watch (session : Session) (operation watcher : String) : Session :=
  let watchers := session.watchersOf operation ++ [watcher]
  { session with watchers := Table.insert operation watchers session.watchers }

/-- Takes a watcher off an operation, once. -/
def unwatch (session : Session) (operation watcher : String) : Session :=
  let watchers := (session.watchersOf operation).erase watcher
  { session with watchers := Table.insert operation watchers session.watchers }

def addBracket (session : Session) (opening closing : String) : Session :=
  { session with brackets := Table.insert opening closing session.brackets }

/-- A fresh session with the same settings, and the same things from outside. -/
def copy (session : Session) : Session :=
  { withSettings session.settings with clock := session.clock, rootFinder := session.rootFinder }

end Session
end ExactAlgebra
