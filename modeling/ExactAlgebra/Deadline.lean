import ExactAlgebra.Datum.Basic

/-! A cooperative deadline. Entering a block arms the guard only when no block is open; blocks
inside share the outer budget, and the guard is disarmed when the outermost block is left. Budgets
are milliseconds; readings of the clock and expiries are seconds, to the precision of binary64
numbers. -/
namespace ExactAlgebra.Deadline
open Binary64

inductive Expiry
  | second (value : Rat)
  /-- The limit is infinite. -/
  | never
deriving DecidableEq, Repr

structure Guard where
  /-- How many blocks are open. -/
  depth : Nat
  /-- The time after which the guard refuses to go on. -/
  expiry : Option Expiry
  /-- The budget in force, as it is shown. -/
  budget : String
deriving DecidableEq, Repr

/-- The time at which a budget that starts now runs out. -/
def expiryOf (budget : Datum) (now : Rat) : Except Fault Expiry := do
  match toRat? (← budget.measure) with
  | some ms => return .second (nearest (now + nearest (ms / 1000)))
  | none => return .never

/-- The budget sets a limit: it is there and positive. -/
def isLimit (budget : Datum) : Except Fault Bool :=
  if budget.isTrue then budget.isAbove 0 else .ok false

namespace Guard

def idle : Guard := ⟨0, none, ""⟩

def isArmed (guard : Guard) : Bool := guard.expiry.isSome

/-- Opens a block at a time. No budget, or one that is not positive, means no limit; the budget of
a block inside another one is not looked at. -/
def enter (guard : Guard) (budget : Datum) (now : Rat) : Except Fault Guard := do
  if 0 < guard.depth then return { guard with depth := guard.depth + 1 }
  else if ← isLimit budget then
    let expiry ← expiryOf budget now
    return ⟨1, some expiry, ← budget.shown⟩
  else return { guard with depth := 1 }

def exit (guard : Guard) : Guard :=
  if guard.depth ≤ 1 then idle else { guard with depth := guard.depth - 1 }

/-- The time left in whole milliseconds, a half to the even one, when the guard is armed. An
infinite time has no such number. -/
def millisecondsLeft (guard : Guard) (now : Rat) : Except Fault (Option Int) :=
  match guard.expiry with
  | none => .ok none
  | some .never => .error .unsupported
  | some (.second expiry) =>
    let ms := nearest (nearest (expiry - now) * 1000)
    let size : Int := roundQuotient ms.num.natAbs ms.den
    .ok (some (if ms < 0 then -size else size))

def check (guard : Guard) (now : Rat) : Except Fault Unit :=
  match guard.expiry with
  | some (.second expiry) =>
    if expiry < now then .error (.deadlineExceeded guard.budget) else .ok ()
  | _ => .ok ()

end Guard

/-- A clock on which the same time passes from each look to the next. -/
structure Clock where
  /-- Seconds between two looks. -/
  pace : Rat

namespace Clock

def still : Clock := ⟨0⟩

def reading (clock : Clock) (looks : Nat) : Rat := nearest (clock.pace * looks)

end Clock

def reading (ms : Rat) : Rat := nearest (ms / 1000)

end ExactAlgebra.Deadline
