import ExactAlgebra.Text.Integer

/-! Command-line options. Long ones may be cut short while they stay unique, values may be attached
or follow, and short flags may be run together. -/
namespace ExactAlgebra.CommandLine
open Text

structure Options where
  expression : Option String := none
  json : Bool := false
  timeout : Option Int := none
  noNumericFallback : Bool := false
  precision : Option Int := none
  version : Bool := false
  help : Bool := false

inductive Switch
  | help
  | expression
  | format
  | timeout
  | noNumericFallback
  | precision
  | version
  | logLevel
  | logFile
deriving DecidableEq, Repr

inductive Invocation
  | help
  | run (options : Options)
  | badUsage

namespace Switch

def spellings : List (String × Switch) :=
  [("-h", help), ("--help", help), ("-e", expression), ("--eval", expression),
    ("--format", format), ("-t", timeout), ("--timeout", timeout),
    ("--no-numeric-fallback", noNumericFallback), ("-p", precision), ("--precision", precision),
    ("-v", version), ("--version", version), ("--log-level", logLevel), ("--log-file", logFile)]

def takesValue : Switch → Bool
  | expression | format | timeout | precision | logLevel | logFile => true
  | help | noNumericFallback | version => false

end Switch

/-- An argument as it is read before the options are known. -/
inductive Argument
  | operand
  /-- A switch, with the value attached to it, and whether it is a short one. -/
  | switch (switch : Switch) (attached : Option String) (isShort : Bool)
  | unknown
  | ambiguous

/-- Nothing, or a single line break. -/
def isLineEnd (s : List Char) : Bool := s == [] || s == ['\n']

/-- Digits, or a fraction with a point, after a minus sign; one line break may follow. -/
def isNegativeNumber (s : List Char) : Bool :=
  match s with
  | '-' :: digits =>
    match digits.dropWhile isDecimal with
    | '.' :: fraction =>
      (fraction.head?.map isDecimal).getD false && isLineEnd (fraction.dropWhile isDecimal)
    | rest => (digits.head?.map isDecimal).getD false && isLineEnd rest
  | _ => false

def splitEquals (s : List Char) : List Char × Option String :=
  match s.dropWhile (· != '=') with
  | [] => (s, none)
  | _ :: value => (s.takeWhile (· != '='), some (String.ofList value))

def candidates (s : List Char) : List Argument :=
  match s with
  | '-' :: '-' :: _ =>
    let (name, value) := splitEquals s
    (Switch.spellings.filter fun (spelling, _) => name.isPrefixOf spelling.toList).map
      fun (_, switch) => .switch switch value false
  | s =>
    let short := (Switch.spellings.filter fun (spelling, _) => spelling.toList == s.take 2).map
      fun (_, switch) => Argument.switch switch (some (String.ofList (s.drop 2))) true
    let long := (Switch.spellings.filter fun (spelling, _) => s.isPrefixOf spelling.toList).map
      fun (_, switch) => Argument.switch switch none false
    short ++ long

def classify (arg : String) : Argument :=
  let s := arg.toList
  let isShort := s.take 2 != ['-', '-']
  match s with
  | '-' :: _ :: _ =>
    match Switch.spellings.lookup arg with
    | some switch => .switch switch none isShort
    | none =>
      let (name, value) := splitEquals s
      match value, Switch.spellings.lookup (String.ofList name) with
      | some value, some switch => .switch switch (some value) isShort
      | _, _ =>
        match candidates s with
        | [argument] => argument
        | _ :: _ :: _ => .ambiguous
        | [] => if isNegativeNumber s || s.contains ' ' then .operand else .unknown
  | _ => .operand

def setValue (options : Options) (switch : Switch) (value : String) : Option Options :=
  match switch with
  | .expression => some { options with expression := some value }
  | .format =>
    if value == "json" || value == "human" then some { options with json := value == "json" }
    else none
  | .timeout => (integer? value).map fun n => { options with timeout := some n }
  | .precision => (integer? value).map fun n => { options with precision := some n }
  | .logLevel => if ["DEBUG", "INFO", "WARNING", "ERROR"].contains value then some options else none
  | .logFile => some options
  | .help | .noNumericFallback | .version => none

def setFlag (options : Options) : Switch → Options
  | .help => { options with help := true }
  | .noNumericFallback => { options with noNumericFallback := true }
  | .version => { options with version := true }
  | _ => options

/-- Goes through short switches that are run together; gives the options so far and, when the last
one takes a value, that switch with what is attached to it. -/
def shortRun (options : Options) : Switch → List Char → Option (Options × Switch × List Char)
  | switch, [] => some (options, switch, [])
  | switch, c :: attached =>
    if switch.takesValue then some (options, switch, c :: attached)
    else
      match Switch.spellings.lookup (String.ofList ['-', c]) with
      | none => none
      | some next => shortRun (setFlag options switch) next attached

inductive Next
  | done (options : Options)
  | needsValue (options : Options) (switch : Switch)
  | refused

/-- Sets a switch to a value, which is not looked at once help was asked for. -/
def applyValue (options : Options) (switch : Switch) (value : String) : Option Options :=
  if options.help then some options else setValue options switch value

/-- Sets a switch by what is attached to it, or says that its value is to follow. -/
def applySwitch (options : Options) (switch : Switch) : Option String → Next
  | some value =>
    match applyValue options switch value with
    | some options => .done options
    | none => .refused
  | none =>
    if switch.takesValue then .needsValue options switch
    else .done (setFlag options switch)

def startSwitch (options : Options) (switch : Switch) (attached : Option String) (isShort : Bool) :
    Next :=
  match attached with
  | none => applySwitch options switch none
  | some text =>
    if switch.takesValue then applySwitch options switch (some text)
    else if !isShort || text.isEmpty then .refused
    else
      match shortRun options switch text.toList with
      | none => .refused
      | some (options, last, rest) =>
        applySwitch options last (if rest.isEmpty then none else some (String.ofList rest))

/-- Reads arguments from left to right until help is asked for; `stray` tells whether something did
not belong. -/
def readArguments (options : Options) (stray : Bool) : List String → Invocation
  | [] => if options.help then .help else if stray then .badUsage else .run options
  | "--" :: _ => if options.help then .help else .badUsage
  | arg :: args =>
    if options.help then .help
    else match classify arg with
    | .operand | .unknown => readArguments options true args
    | .ambiguous => .badUsage
    | .switch switch attached isShort =>
      match startSwitch options switch attached isShort with
      | .refused => .badUsage
      | .done options => readArguments options stray args
      | .needsValue options switch =>
        match args with
        | [] => .badUsage
        | value :: args =>
          match value == "--", classify value with
          | false, .operand =>
            match applyValue options switch value with
            | some options => readArguments options stray args
            | none => .badUsage
          | _, _ => .badUsage

def isAmbiguous (arg : String) : Bool :=
  match classify arg with
  | .ambiguous => true
  | _ => false

/-- What the arguments ask for; an ambiguous one is refused wherever it stands before `--`. -/
def invocation (args : List String) : Invocation :=
  if (args.takeWhile (· != "--")).any isAmbiguous then .badUsage else readArguments {} false args

end ExactAlgebra.CommandLine
