import ExactAlgebra.Log.Template

/-! Lines of a log: time, level, source, message and an optional error code. -/
namespace ExactAlgebra.Log

structure Date where
  year : Nat
  month : Nat
  day : Nat

/-- The date a number of days after the first of January 1970, counted from the first of March of
the year zero, where leap days end the year. -/
def Date.ofDays (days : Nat) : Date :=
  let shifted := days + 719468
  let era := shifted / 146097
  let dayOfEra := shifted % 146097
  let yearOfEra := (dayOfEra - dayOfEra / 1460 + dayOfEra / 36524 - dayOfEra / 146096) / 365
  let dayOfYear := dayOfEra - (365 * yearOfEra + yearOfEra / 4 - yearOfEra / 100)
  let shiftedMonth := (5 * dayOfYear + 2) / 153
  let day := dayOfYear - (153 * shiftedMonth + 2) / 5 + 1
  let month := if shiftedMonth < 10 then shiftedMonth + 3 else shiftedMonth - 9
  ⟨yearOfEra + era * 400 + (if month ≤ 2 then 1 else 0), month, day⟩

def padded (width n : Nat) : String :=
  let digits := (toString n).toList
  String.ofList (List.replicate (width - digits.length) '0' ++ digits)

/-- The time so many seconds after the start of 1970. -/
def timeText (seconds : Nat) : String :=
  let date := Date.ofDays (seconds / 86400)
  let rest := seconds % 86400
  padded 4 date.year ++ "-" ++ padded 2 date.month ++ "-" ++ padded 2 date.day ++ "T" ++
    padded 2 (rest / 3600) ++ ":" ++ padded 2 (rest / 60 % 60) ++ ":" ++ padded 2 (rest % 60)

inductive Level
  | unset
  | debug
  | info
  | warning
  | error
  | critical
deriving DecidableEq, Repr

namespace Level

def name : Level → String
  | unset => "NOTSET"
  | debug => "DEBUG"
  | info => "INFO"
  | warning => "WARNING"
  | error => "ERROR"
  | critical => "CRITICAL"

/-- The level of a name; two of them have a second one. -/
def ofName : String → Except Fault Level
  | "NOTSET" => .ok unset
  | "DEBUG" => .ok debug
  | "INFO" => .ok info
  | "WARNING" | "WARN" => .ok warning
  | "ERROR" => .ok error
  | "CRITICAL" | "FATAL" => .ok critical
  | _ => .error .unsupported

end Level

structure Entry where
  seconds : Nat
  level : Level
  source : String
  message : String
  code : Datum

/-- The line of an entry; a code that is absent, zero or empty is left out. -/
def Entry.line (entry : Entry) : Except Fault String := do
  let code ←
    if entry.code.isTrue then do pure (" (code=" ++ (← entry.code.shown) ++ ")") else pure ""
  return timeText entry.seconds ++ " [" ++ entry.level.name ++ "] " ++ entry.source ++ ": " ++
    entry.message ++ code

end ExactAlgebra.Log
