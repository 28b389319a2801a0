import ExactAlgebra.CommandLine.Dispatch
import ExactAlgebra.CommandLine.Options

/-! The interactive shell and the single-expression mode, as functions from input to output. -/
namespace ExactAlgebra.CommandLine
open Text

def versionText : String := "1.0.0"

def prompt : String := ">>> "

def banner : String := "Aljabar - type 'help' for commands, 'quit' to exit.\n"

def helpText : String :=
  String.join ([
    "Aljabar version " ++ versionText,
    "",
    "Expressions:    2*x+3*x, sin(pi/6), (x+1)^3, 1/3+1/6",
    "Calculus:       diff(x^3, x), integrate(x*e^x, x), defint(x^2, 0, 1, x)",
    "                limit(sin(x)/x, x, 0), limit((2*x^2+1)/(x^2+3), x, Infinity)",
    "Transforms:     laplace(t^2, t, s), ilt(1/(s^2+1), s, t)",
    "Algebra:        expand((x+1)^2), factor(x^2-1), partfrac(1/(x^2-1), x), simplify(...)",
    "                gcd(x^2-1, x^2+2*x+1), lcm(4, 6), divide(x^3-1, x-1), deg(f), coeffs(f),",
    "                sqcomp(x^2+4*x+1), roots(x^3-1), 7 % 3",
    "Equations:      x^2-4=0, sin(x)=1/2, find x",
    "Systems:        x+y=3, x-y=1",
    "Definitions:    a := 2, f(x) := x^2+1",
    "",
    "Commands:       help, vars, clear, quit"].map (· ++ "\n"))

def usageText : String :=
  "usage: aljabar [-h] [-e EVAL_EXPR] [--format FORMAT] [-t TIMEOUT] [--no-numeric-fallback]\n" ++
    "               [-p PRECISION] [-v] [--log-level LEVEL] [--log-file LOG_FILE]\n"

structure Shell where
  session : Session
  json : Bool

inductive Step
  | goOn (shell : Shell) (output : String)
  | stop

def variableLines (session : Session) : Except Fault String := do
  let sorted := session.bindings.mergeSort fun a b => decide (a.1 ≤ b.1)
  return String.join (← sorted.mapM fun (name, value) => do
    return name ++ " = " ++ (← value.shown) ++ "\n")

def Shell.step (shell : Shell) (line : String) : Except Fault Step :=
  let command := String.ofList ((strip line.toList).map Char.toLower)
  if command == "" then .ok (.goOn shell "")
  else if command == "quit" || command == "exit" then .ok .stop
  else if command == "help" then .ok (.goOn shell helpText)
  else if command == "vars" then do return .goOn shell (← variableLines shell.session)
  else if command == "clear" then
    .ok (.goOn { shell with session := shell.session.clearVariables } "")
  else do
    let (session, report) ← (dispatch shell.session line).result
    return .goOn { shell with session := session } (← report.printed shell.json)

/-- The output for lines of input; a prompt stands before each, and the end of input gives a line
break. -/
def Shell.converse (shell : Shell) : List String → Except Fault String
  | [] => .ok (prompt ++ "\n")
  | line :: lines => do
    match ← shell.step line with
    | .stop => return prompt
    | .goOn shell output => return prompt ++ output ++ (← shell.converse lines)

/-- The lines of a text; a last line break ends the last line. -/
def inputLines (text : String) : List String :=
  let lines := splitAtChar '\n' text.toList
  let lines := if lines.getLast? == some [] then lines.dropLast else lines
  lines.map String.ofList

def Options.configure (options : Options) (session : Session) : Session :=
  let settings := session.settings
  let settings := match options.timeout with
    | some ms => if 0 ≤ ms then settings.set .timeoutMs (.whole ms) else settings
    | none => settings
  let settings :=
    if options.noNumericFallback then settings.set .numericFallback (.flag false) else settings
  let settings := match options.precision with
    | some digits => if 0 < digits then settings.set .outputPrecision (.whole digits) else settings
    | none => settings
  { session with settings := settings }

/-- The expression to evaluate, without blanks and without a prompt that was copied along. -/
def withoutPrompt (expression : String) : List Char :=
  let s := strip expression.toList
  match dropPattern? ['>', '>', '>'] s with
  | some rest => strip rest
  | none => s

structure Result where
  code : UInt8
  output : String

def evaluateOnce (session : Session) (json : Bool) (expression : String) : Except Fault Result := do
  let s := withoutPrompt expression
  if s.isEmpty then
    return ⟨1, "Error: Empty input. Please enter a valid expression, equation, or command.\n"⟩
  let (_, report) ← (dispatch session (String.ofList s)).result
  return ⟨if report.isSuccess then 0 else 1, ← report.printed json⟩

def run (session : Session) (args : List String) (input : String) : Except Fault Result :=
  match invocation args with
  | .badUsage => .ok ⟨2, ""⟩
  | .help => .ok ⟨0, usageText⟩
  | .run options =>
    if options.version then .ok ⟨0, versionText ++ "\n"⟩
    else
      let session := options.configure session
      match options.expression with
      | some expression => evaluateOnce session options.json expression
      | none => do
        let shell : Shell := ⟨session, options.json⟩
        return ⟨0, banner ++ (← shell.converse (inputLines input))⟩

end ExactAlgebra.CommandLine
