import ExactAlgebra.Builtin.Call
import ExactAlgebra.Session.Basic

/-! Evaluation of postfix programs on a stack of values. Watchers see the operands of an operation
before it is carried out, also when it then fails. -/
namespace ExactAlgebra
open Reader

/-- An operation that a watcher saw, with the texts of its operands. -/
structure Sighting where
  operation : String
  operands : List String

/-- A computation that may fail but keeps what watchers saw. -/
abbrev Machine := ExceptT Fault (StateM (List Sighting))

namespace Machine

def ofExcept (x : Except Fault α) : Machine α := ExceptT.mk (pure x)

def outcome (x : Machine α) : Except Fault α × List Sighting := StateT.run (ExceptT.run x) []

def result (x : Machine α) : Except Fault α := x.outcome.1

end Machine

/-- A value that the caller gives for a name. -/
inductive Binding
  | value (v : Value)
  /-- Text that is read where the name is used. -/
  | text (s : String)
  /-- Nothing, which is no value either. -/
  | absent
  /-- Something that is no value. -/
  | invalid

abbrev Bindings := List (String × Binding)

/-- The values computed so far, the last one at the end. -/
abbrev Stack := List Value

namespace Stack

/-- Splits off the operands of an operation: the last `count` values. When there are fewer, what
is missing is counted off from the end instead; a count of zero takes none. -/
def split (stack : Stack) (count : Int) : Stack × List Value :=
  if count ≤ 0 then (stack, [])
  else
    let n := count.toNat
    let kept := if n ≤ stack.length then stack.length - n else stack.length - (n - stack.length)
    (stack.take kept, stack.drop kept)

/-- Splits off the operands of an operator: the last `arity` values; an arity of zero takes all of
them, a negative one leaves as many as it says. -/
def splitOperands (stack : Stack) (arity : Int) : Stack × List Value :=
  let kept := if 0 < arity then stack.length - arity.toNat else arity.natAbs
  (stack.take kept, stack.drop kept)

end Stack

namespace Session

def runEngine (session : Session) (x : Engine α) : Machine α :=
  Machine.ofExcept (x.runIn session.scope)

/-- Shows copies of the operands of an operation to its watchers. -/
def notify (session : Session) (operation : String) (operands : List Value) : Machine Unit := do
  let watchers := (session.watchers.lookup operation).getD []
  if watchers.isEmpty then return
  if !Value.allShowable operands then throw .unsupported
  let texts ← Machine.ofExcept (Value.renderAll operands)
  modify (· ++ watchers.map fun _ => ⟨operation, texts⟩)

/-- What a name stands for when the caller gives no value: a variable, a constant or an unknown. An
expression and any constant are copied. -/
def resolveName (session : Session) (name : String) (position : Nat) : Except Fault Value :=
  match session.bindings.lookup name, session.constants.lookup name with
  | some (.expr e), _ => if e.isCopyable then .ok (.expr e) else .error .unsupported
  | some value, _ => .ok value
  | none, some value => if value.isCopyable then .ok value else .error .unsupported
  | none, none =>
    if (session.functions.lookup name).isSome then .error (.bareFunction name position)
    else if Text.isName name then .ok (.expr (.bare name))
    else .error (.badVariableName name)

abbrev Resolver := String → Nat → Machine Value

def step (session : Session) (resolve : Resolver) (stack : Stack) :
    Instruction → Machine Stack
  | .number text => do
    let value ← Machine.ofExcept (Rational.ofText text)
    return stack ++ [.expr (.number value)]
  | .name name position => do return stack ++ [← resolve name position]
  | .operator op => do
    if (stack.length : Int) < op.arity then throw (.missingOperand op.symbol)
    let (rest, operands) := stack.splitOperands op.arity
    session.notify op.name operands
    return rest ++ [← session.runEngine (op.action.run operands)]
  | .call name count position => do
    if (session.functions.lookup name).isNone then throw (.unknownFunction name position)
    let (rest, args) := stack.split count
    session.notify name args
    return rest ++ [← session.runEngine (callFunction name args)]
  | .vector count =>
    let (rest, items) := stack.split count
    return rest ++ [.list items]
  | .unknown kind => throw (.unknownInstruction kind)

/-- Runs a program, which must leave one value. -/
def execute (session : Session) (resolve : Resolver) (program : Program) : Machine Value := do
  match ← program.foldlM (session.step resolve) [] with
  | [value] => return value
  | _ => throw .malformedProgram

/-- Reads and evaluates a text without values from the caller. -/
def read (session : Session) (text : String) : Machine Value := do
  session.execute (fun name position => Machine.ofExcept (session.resolveName name position))
    (← Machine.ofExcept (session.compile text))

/-- The meaning of names when the caller gives values for some. -/
def resolver (session : Session) (bindings : Bindings) : Resolver := fun name position =>
  match bindings.lookup name with
  | some (.value v) => return v
  | some (.text s) => session.read s
  | some .absent | some .invalid => throw .unsupported
  | none => Machine.ofExcept (session.resolveName name position)

def runProgram (session : Session) (program : Program) (bindings : Bindings) : Machine Value :=
  session.execute (session.resolver bindings) program

/-- The values for names in a text. The text and the session go by names of their own, for which
there is no other value; nothing may be given for the session. -/
def namedValues (bindings : Bindings) : Except Fault Bindings :=
  match bindings.lookup "text", bindings.lookup "session" with
  | none, none => .ok bindings
  | none, some .absent => .ok (bindings.filter (·.1 != "session"))
  | _, _ => .error .unsupported

def parse (session : Session) (text : String) (bindings : Bindings) : Machine Value := do
  let bindings ← Machine.ofExcept (namedValues bindings)
  session.runProgram (← Machine.ofExcept (session.compile text)) bindings

end Session
end ExactAlgebra
