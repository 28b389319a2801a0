import ExactAlgebra.Settings
import ExactAlgebra.Deadline
import ExactAlgebra.Numeric.Quantity

/-! Computations that read settings, look at the deadline and call functions by name. Functions
may call each other through the table, so the rule for calls is part of what a computation
reads. -/
namespace ExactAlgebra

/-- What an algorithm can see of its session. -/
structure Scope where
  settings : Settings
  guard : Deadline.Guard
  clock : Deadline.Clock
  functions : FunctionTable
  rootFinder : Numeric.RootFinder

/-- A computation that may fail and counts its looks at the clock. The count goes on after a fault
that is dealt with, because time does. -/
abbrev Watch := ExceptT Fault (StateM Nat)

/-- A scope together with the rule for calling a function in a scope. -/
structure Context where
  scope : Scope
  call : Scope → String → List Value → Watch Value

abbrev Engine := ReaderT Context Watch

namespace Engine

def settings : Engine Settings := do return (← read).scope.settings

def setting (setting : Setting) : Engine Datum := do return (← settings).get setting

def rootFinder : Engine Numeric.RootFinder := do return (← read).scope.rootFinder

def count (setting : Setting) : Engine Int := do ((← settings).get setting).integer

/-- Takes an operand for arithmetic, which works on a copy unless the settings allow otherwise; what
cannot be copied is refused. -/
def own (e : Expr) : Engine Unit := do
  if (← settings).chosen .immutable && !e.isCopyable then throw .unsupported

def look : Engine Rat := do
  let clock := (← read).scope.clock
  return clock.reading (← modifyGet fun looks => (looks, looks + 1))

/-- Looks at the deadline, if there is one. -/
def poll : Engine Unit := do
  let guard := (← read).scope.guard
  if guard.isArmed then guard.check (← look)

def pollTimes : Nat → Engine Unit
  | 0 => return
  | n + 1 => do
    poll
    pollTimes n

/-- Looks at the deadline once for each step of some work; the steps are counted only where there is
a deadline. -/
def pollSteps (steps : Unit → Nat) : Engine Unit := do
  if (← read).scope.guard.isArmed then pollTimes (steps ())

/-- Opens a block of the deadline. Only the outermost block looks at the clock. -/
def openBlock : Engine Deadline.Guard := do
  let scope := (← read).scope
  let now ← if scope.guard.depth = 0 then look else pure 0
  scope.guard.enter (scope.settings.get .timeoutMs) now

def inScope (change : Scope → Scope) (x : Engine α) : Engine α :=
  ReaderT.adapt (fun context : Context => { context with scope := change context.scope }) x

/-- Runs a computation as a block of the deadline, in which operands are always copied. -/
def guarded (x : Engine α) : Engine α := do
  let guard ← openBlock
  inScope (fun scope =>
    { scope with
      guard := guard
      settings :=
        if scope.settings.chosen .immutable then scope.settings
        else scope.settings.set .immutable (.flag true) }) x

def withSetting (setting : Setting) (value : Datum) (x : Engine α) : Engine α :=
  inScope (fun scope => { scope with settings := scope.settings.set setting value }) x

def call (name : String) (args : List Value) : Engine Value := do
  let context ← read
  context.call context.scope name args

def callExpr (name : String) (args : List Expr) : Engine Expr := do
  (← call name (args.map .expr)).toExpr

def apply (name : String) (arg : Expr) : Engine Expr := callExpr name [arg]

/-- The outcome of a computation, where faults that `expected` accepts count as no answer. -/
def attempt (expected : Fault → Bool) (x : Engine α) : Engine (Option α) :=
  tryCatch (some <$> x) fun fault => if expected fault then return none else throw fault

end Engine
end ExactAlgebra
