import ExactAlgebra.CommandLine.Shell
import ExactAlgebra.Numeric.PolynomialRoots

/-! The program: options, one expression or the shell on standard input, and an exit code. -/
open ExactAlgebra ExactAlgebra.CommandLine

/-- A fresh session that finds numeric roots. -/
def startSession : Session := { Session.initial with rootFinder := Numeric.polynomialRoots }

/-- Reads lines and carries them out until the end of input or a command to stop. -/
partial def converse (shell : Shell) (input output : IO.FS.Stream) : IO UInt8 := do
  output.putStr prompt
  output.flush
  let line ← input.getLine
  if line.isEmpty then
    output.putStr "\n"
    return 0
  match shell.step (line.dropEndWhile (· == '\n')).toString with
  | .error fault =>
    IO.eprintln fault.message
    return 1
  | .ok .stop => return 0
  | .ok (.goOn shell text) =>
    output.putStr text
    converse shell input output

/-- The options of a run that leave no work but the shell. -/
def shellOptions? (args : List String) : Option Options :=
  match invocation args with
  | .run options => if options.expression.isSome || options.version then none else some options
  | _ => none

def main (args : List String) : IO UInt32 := do
  let output ← IO.getStdout
  match shellOptions? args with
  | some options =>
    output.putStr banner
    let code ← converse ⟨options.configure startSession, options.json⟩ (← IO.getStdin) output
    return code.toUInt32
  | none =>
    match run startSession args "" with
    | .error fault =>
      IO.eprintln fault.message
      return 1
    | .ok result =>
      output.putStr result.output
      return result.code.toUInt32
