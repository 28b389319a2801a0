import ExactAlgebra.Deadline
import ExactAlgebra.Proofs.Computation
import Mathlib

/-! A guard over whole runs. Blocks are opened and left in any nesting, by a fault or at their end, and
the guard is looked at in between. The outermost open block alone decides whether there is a limit and
when it runs out; once that block is left, the guard is as it was at first. -/
namespace ExactAlgebra.Deadline
open Binary64

def IsPositive : Datum → Prop
  | .flag value => value = true
  | .whole ms => 0 < ms
  | .real ms => (ms != 0) = true ∧
      match toRat? ms with
      | some ms => 0 < ms
      | none => ms.isNaN = false ∧ ¬ ms < 0
  | _ => False

/-- A block can be opened with the budget: it is none, or a number that is not too large to be added to
a time and shown. -/
def isBudget : Datum → Bool
  | .whole ms => ms ≤ 0 || (ofRat? ms).isSome && Rational.isWritable ms
  | .flag _ | .real _ => true
  | other => !other.isTrue

/-- An entry time with a number of milliseconds added to it. Both the seconds and the sum are rounded
as binary64 numbers are. -/
def ends (entered : Rat) (ms : Float) : Expiry :=
  match toRat? ms with
  | some ms => .second (nearest (entered + nearest (ms / 1000)))
  | none => .never

variable {budget : Datum} {now : Rat} {guard entered : Guard}

theorem compareOfLessAndEq_zero_eq_gt {a : ℚ} : (compareOfLessAndEq a 0 == .gt) = decide (0 < a) := by
  unfold compareOfLessAndEq
  rcases lt_trichotomy a 0 with below | rfl | above
  · simp [below, below.le]
  · rfl
  · simp [above, above.ne', above.not_gt]

theorem isAbove_zero_of_integer {n : ℤ}
    (place : budget.compareTo 0 = .ok (some (compareOfLessAndEq (n : ℚ) 0))) :
    budget.isAbove 0 = .ok (decide (0 < n)) := by
  unfold Datum.isAbove
  rw [place]
  exact congrArg Except.ok (compareOfLessAndEq_zero_eq_gt.trans (decide_eq_decide.mpr Int.cast_pos))

theorem isAbove_zero_real (ms : Float) : (Datum.real ms).isAbove 0 = .ok (match toRat? ms with
    | some ms => decide (0 < ms)
    | none => !ms.isNaN && !decide (ms < 0)) := by
  unfold Datum.isAbove Datum.compareTo
  dsimp only
  cases toRat? ms with
  | some a => exact congrArg Except.ok compareOfLessAndEq_zero_eq_gt
  | none =>
    dsimp only
    split
    next nan => rw [nan]; rfl
    next number =>
      rw [Bool.eq_false_iff.mpr number]
      split
      next below => rw [decide_eq_true below]; rfl
      next other => rw [decide_eq_false other]; rfl

theorem isLimit_eq_true :
    isLimit budget = .ok true ↔ budget.isTrue = true ∧ budget.isAbove 0 = .ok true := by
  unfold isLimit
  by_cases there : budget.isTrue = true
  · simp [there]
  · simp [there]

/-- A budget is a limit exactly if it is a positive number. -/
theorem isLimit_iff_isPositive : isLimit budget = .ok true ↔ IsPositive budget := by
  rw [isLimit_eq_true]
  cases budget with
  | flag value =>
    rw [isAbove_zero_of_integer (n := if value then 1 else 0) rfl]
    cases value <;> simp [Datum.isTrue, IsPositive]
  | whole ms =>
    rw [isAbove_zero_of_integer (n := ms) rfl, Except.ok.injEq, decide_eq_true_iff]
    exact ⟨And.right, fun positive => ⟨decide_eq_true positive.ne', positive⟩⟩
  | real ms =>
    rw [isAbove_zero_real, Except.ok.injEq]
    apply and_congr_right
    intro _
    cases toRat? ms <;> simp
  | absent | text | list | record => exact ⟨nofun, nofun⟩

theorem expiryOf_of_measure {ms : Float} (measured : budget.measure = .ok ms) :
    expiryOf budget now = .ok (ends now ms) := by
  change budget.measure >>= _ = _
  rw [measured]
  change (match toRat? ms with
    | some ms => Except.ok (Expiry.second (nearest (now + nearest (ms / 1000))))
    | none => Except.ok Expiry.never) = _
  unfold ends
  cases toRat? ms <;> rfl

/-- What comes of a budget for an outermost block. -/
inductive Accepts (now : Rat) (budget : Datum) : Except Fault Guard → Prop
  | refused (bad : isBudget budget = false) (fault : Fault) : Accepts now budget (.error fault)
  | unlimited (good : isBudget budget = true) (other : ¬ IsPositive budget) :
    Accepts now budget (.ok ⟨1, none, ""⟩)
  | limited (good : isBudget budget = true) (positive : IsPositive budget) {ms : Float} {shown : String}
    (measured : budget.measure = .ok ms) (written : budget.shown = .ok shown) :
    Accepts now budget (.ok ⟨1, some (ends now ms), shown⟩)

theorem enter_idle : Guard.idle.enter budget now = do
    if ← isLimit budget then
      let expiry ← expiryOf budget now
      return ⟨1, some expiry, ← budget.shown⟩
    else return ⟨1, none, ""⟩ := rfl

theorem accepts_unlimited (good : isBudget budget = true) (limit : isLimit budget = .ok false) :
    Accepts now budget (Guard.idle.enter budget now) := by
  have enter : Guard.idle.enter budget now = .ok ⟨1, none, ""⟩ := by
    rw [enter_idle, limit]
    rfl
  rw [enter]
  refine .unlimited good fun positive => ?_
  cases limit.symm.trans (isLimit_iff_isPositive.mpr positive)

theorem accepts_limited (good : isBudget budget = true) (positive : IsPositive budget) {ms : Float}
    {shown : String} (measured : budget.measure = .ok ms) (written : budget.shown = .ok shown) :
    Accepts now budget (Guard.idle.enter budget now) := by
  have enter : Guard.idle.enter budget now = .ok ⟨1, some (ends now ms), shown⟩ := by
    rw [enter_idle, isLimit_iff_isPositive.mpr positive, expiryOf_of_measure measured, written]
    rfl
  rw [enter]
  exact .limited good positive measured written

theorem accepts_whole (ms : ℤ) : Accepts now (.whole ms) (Guard.idle.enter (.whole ms) now) := by
  by_cases positive : 0 < ms
  · have limit := isLimit_iff_isPositive.mpr (show IsPositive (.whole ms) from positive)
    cases size : ofRat? ms with
    | none =>
      have enter : Guard.idle.enter (.whole ms) now = .error .unsupported := by
        rw [enter_idle, limit]
        simp only [expiryOf, Datum.measure, ofRat, size]
        rfl
      rw [enter]
      exact .refused (by simp [isBudget, positive.not_ge, size]) _
    | some x =>
      have measured : (Datum.whole ms).measure = .ok x := by simp only [Datum.measure, ofRat, size]
      by_cases writable : Rational.isWritable ms = true
      · have written : (Datum.whole ms).shown = .ok (toString ms) := by
          simp only [Datum.shown, Datum.described, Datum.integerText, if_pos writable]
        exact accepts_limited (by simp [isBudget, size, writable]) positive measured written
      · have written : (Datum.whole ms).shown = .error .unsupported := by
          simp only [Datum.shown, Datum.described, Datum.integerText, if_neg writable]
        have enter : Guard.idle.enter (.whole ms) now = .error .unsupported := by
          rw [enter_idle, limit, expiryOf_of_measure measured, written]
          rfl
        rw [enter]
        exact .refused (by simp [isBudget, positive.not_ge, writable]) _
  · apply accepts_unlimited
    · simp [isBudget, not_lt.mp positive]
    · unfold isLimit
      rw [isAbove_zero_of_integer (n := ms) rfl, decide_eq_false positive, ite_self]

theorem accepts_real (ms : Float) : Accepts now (.real ms) (Guard.idle.enter (.real ms) now) := by
  by_cases positive : IsPositive (.real ms)
  · exact accepts_limited rfl positive rfl rfl
  · apply accepts_unlimited rfl
    have other := mt isLimit_iff_isPositive.mp positive
    unfold isLimit at other ⊢
    rw [isAbove_zero_real] at other ⊢
    split at other
    next there =>
      rw [if_pos there]
      exact congrArg Except.ok (Bool.eq_false_iff.mpr fun limit => other (congrArg Except.ok limit))
    next absent => rw [if_neg absent]

/-- What is no number is no budget, unless it counts as none. -/
theorem accepts_other (other : budget.compareTo 0 = .error .unsupported)
    (kind : isBudget budget = !budget.isTrue) : Accepts now budget (Guard.idle.enter budget now) := by
  cases there : budget.isTrue with
  | false =>
    apply accepts_unlimited (by rw [kind, there]; rfl)
    unfold isLimit
    rw [there]
    rfl
  | true =>
    have enter : Guard.idle.enter budget now = .error .unsupported := by
      rw [enter_idle]
      unfold isLimit Datum.isAbove
      rw [there, other]
      rfl
    rw [enter]
    exact .refused (by rw [kind, there]; rfl) _

theorem accepts_enter : Accepts now budget (Guard.idle.enter budget now) := by
  cases budget with
  | absent => exact accepts_other rfl rfl
  | flag value =>
    cases value with
    | false => exact accepts_unlimited rfl rfl
    | true => exact accepts_limited rfl rfl rfl rfl
  | whole ms => exact accepts_whole ms
  | real ms => exact accepts_real ms
  | text | list | record => exact accepts_other rfl rfl

/-- An open block: the budget it was opened with, and when. -/
structure Block where
  budget : Datum
  entered : Rat

inductive Event
  /-- A block is to be opened with a budget. -/
  | enter (budget : Datum) (now : Rat)
  /-- The innermost block is left, on account of a fault or at its end. -/
  | exit (fault : Option Fault)
  | check (now : Rat)

/-- The guard after an event. A block that cannot be opened changes nothing. -/
def Guard.after (guard : Guard) : Event → Guard
  | .enter budget now =>
    match guard.enter budget now with
    | .ok entered => entered
    | .error _ => guard
  | .exit _ => guard.exit
  | .check _ => guard

def Guard.run (events : List Event) : Guard := events.foldl Guard.after idle

/-- The open blocks after an event, the innermost first, unless a block is left that was not opened. -/
def openAfter (blocks : List Block) : Event → Option (List Block)
  | .enter budget now =>
    if blocks ≠ [] ∨ isBudget budget = true then some (⟨budget, now⟩ :: blocks) else some blocks
  | .exit _ => if blocks = [] then none else some blocks.tail
  | .check _ => some blocks

/-- The open blocks after a run in which blocks are well nested. -/
def openBlocks (events : List Event) : Option (List Block) := events.foldlM openAfter []

/-- The guard is as the open blocks make it. -/
structure Follows (guard : Guard) (blocks : List Block) : Prop where
  depth : guard.depth = blocks.length
  idle : blocks = [] → guard = .idle
  unlimited : ∀ outer ∈ blocks.getLast?, ¬ IsPositive outer.budget → guard.expiry = none
  limited : ∀ outer ∈ blocks.getLast?, IsPositive outer.budget → ∃ ms, outer.budget.measure = .ok ms ∧
    outer.budget.shown = .ok guard.budget ∧ guard.expiry = some (ends outer.entered ms)

variable {blocks rest : List Block}

theorem follows_idle : Follows .idle [] where
  depth := rfl
  idle _ := rfl
  unlimited := nofun
  limited := nofun

/-- The outermost block settles the limit. -/
theorem Follows.enter_outermost (accepts : Accepts now budget (.ok entered)) :
    Follows entered [⟨budget, now⟩] := by
  cases accepts with
  | unlimited _ other => exact ⟨rfl, nofun, fun _ _ _ => rfl, fun
      | _, rfl, positive => absurd positive other⟩
  | limited _ positive measured written => exact ⟨rfl, nofun, fun
      | _, rfl, other => absurd positive other, fun
      | _, rfl, _ => ⟨_, measured, written, rfl⟩⟩

/-- Blocks that are opened or left inside the outermost one touch nothing but the depth. -/
theorem Follows.inside (follows : Follows guard blocks) {others : List Block}
    (same : others.getLast? = blocks.getLast?) (opened : others ≠ []) :
    Follows { guard with depth := others.length } others where
  depth := rfl
  idle empty := absurd empty opened
  unlimited := same ▸ follows.unlimited
  limited := same ▸ follows.limited

theorem Follows.enter (follows : Follows guard blocks) (budget : Datum) (now : Rat) :
    ∃ later, openAfter blocks (.enter budget now) = some later ∧
      Follows (guard.after (.enter budget now)) later := by
  by_cases outermost : blocks = []
  · obtain rfl := follows.idle outermost
    subst outermost
    have accepts : Accepts now budget (Guard.idle.enter budget now) := accepts_enter
    unfold Guard.after openAfter
    dsimp only
    cases entered : Guard.idle.enter budget now with
    | error fault =>
      rw [entered] at accepts
      cases accepts with
      | refused bad => exact ⟨[], by simp [bad], follows_idle⟩
    | ok guard =>
      rw [entered] at accepts
      exact ⟨_, by cases accepts <;> simp [*], .enter_outermost accepts⟩
  · have opened : 0 < guard.depth := by
      rw [follows.depth]
      exact List.length_pos_of_ne_nil outermost
    have entered : guard.enter budget now = .ok { guard with depth := guard.depth + 1 } := by
      rw [Guard.enter, if_pos opened]
      rfl
    refine ⟨⟨budget, now⟩ :: blocks, if_pos (.inl outermost), ?_⟩
    unfold Guard.after
    dsimp only
    rw [entered, follows.depth]
    exact follows.inside (List.getLast?_cons_of_ne_nil outermost) (List.cons_ne_nil _ _)

theorem Follows.exit (follows : Follows guard blocks) {fault : Option Fault} {later : List Block}
    (left : openAfter blocks (.exit fault) = some later) :
    Follows (guard.after (.exit fault)) later := by
  cases blocks with
  | nil => cases left
  | cons block outer =>
    cases left
    change Follows guard.exit outer
    have depth : guard.depth = outer.length + 1 := follows.depth
    unfold Guard.exit
    by_cases outermost : outer = []
    · subst outermost
      rw [if_pos (show guard.depth ≤ 1 from depth.le)]
      exact follows_idle
    · have others : 0 < outer.length := List.length_pos_of_ne_nil outermost
      rw [if_neg (by omega), depth, Nat.add_sub_cancel]
      exact follows.inside (List.getLast?_cons_of_ne_nil outermost).symm outermost

/-- The guard follows the blocks through every event. -/
theorem Follows.after (follows : Follows guard blocks) {event : Event} {later : List Block}
    (step : openAfter blocks event = some later) : Follows (guard.after event) later := by
  cases event with
  | enter budget now =>
    obtain ⟨opened, known, result⟩ := follows.enter budget now
    cases known.symm.trans step
    exact result
  | exit => exact follows.exit step
  | check now =>
    cases step
    exact follows

/-- The guard follows the blocks through every run, from any state that they describe. -/
theorem Follows.foldl (follows : Follows guard blocks) {events : List Event} {later : List Block}
    (nested : events.foldlM openAfter blocks = some later) :
    Follows (events.foldl Guard.after guard) later := by
  induction events generalizing guard blocks with
  | nil =>
    cases nested
    exact follows
  | cons event events ih =>
    rw [List.foldlM_cons] at nested
    obtain ⟨between, step, nested⟩ := Option.bind_eq_some_iff.mp nested
    exact ih (follows.after step) nested

def IsOver : Option Expiry → Rat → Prop
  | some (.second expiry), now => expiry < now
  | _, _ => False

theorem check_outcome (guard : Guard) (now : Rat) :
    (IsOver guard.expiry now ∧ guard.check now = .error (.deadlineExceeded guard.budget)) ∨
      (¬ IsOver guard.expiry now ∧ guard.check now = .ok ()) := by
  unfold Guard.check IsOver
  cases guard.expiry with
  | none => exact .inr ⟨id, rfl⟩
  | some expiry =>
    cases expiry with
    | never => exact .inr ⟨id, rfl⟩
    | second moment =>
      by_cases past : moment < now
      · exact .inl ⟨past, if_pos past⟩
      · exact .inr ⟨past, if_neg past⟩

/-- A guard in any run of well-nested blocks. Its depth is the number of open blocks; it is armed exactly
if the outermost open block has a positive budget, and then it runs out when that budget, counted from the
entry of that block, does; it refuses to go on, with a timeout that shows the budget, exactly when that
time is past; and it is in its first state again as soon as no block is open. -/
theorem guard_follows_outermost_block (events : List Event) (blocks : List Block)
    (nested : openBlocks events = some blocks) :
    (Guard.run events).depth = blocks.length ∧
      ((Guard.run events).isArmed = true ↔ ∃ outer ∈ blocks.getLast?, IsPositive outer.budget) ∧
      (∀ outer ∈ blocks.getLast?, IsPositive outer.budget → ∃ ms, outer.budget.measure = .ok ms ∧
        outer.budget.shown = .ok (Guard.run events).budget ∧
        (Guard.run events).expiry = some (ends outer.entered ms)) ∧
      (∀ now, IsOver (Guard.run events).expiry now →
        (Guard.run events).check now = .error (.deadlineExceeded (Guard.run events).budget)) ∧
      (∀ now, ¬ IsOver (Guard.run events).expiry now → (Guard.run events).check now = .ok ()) ∧
      (blocks = [] → Guard.run events = .idle) := by
  have follows : Follows (Guard.run events) blocks := follows_idle.foldl nested
  refine ⟨follows.depth, ?_, follows.limited, ?_, ?_, follows.idle⟩
  · constructor
    · intro armed
      cases outermost : blocks.getLast? with
      | none =>
        rw [follows.idle (List.getLast?_eq_none_iff.mp outermost)] at armed
        cases armed
      | some outer =>
        refine ⟨outer, rfl, ?_⟩
        by_contra other
        unfold Guard.isArmed at armed
        rw [follows.unlimited outer outermost other] at armed
        cases armed
    · rintro ⟨outer, outermost, positive⟩
      obtain ⟨ms, -, -, expiry⟩ := follows.limited outer outermost positive
      unfold Guard.isArmed
      rw [expiry]
      rfl
  · intro now past
    rcases check_outcome (Guard.run events) now with ⟨-, refused⟩ | ⟨inTime, -⟩
    · exact refused
    · exact absurd past inTime
  · intro now inTime
    rcases check_outcome (Guard.run events) now with ⟨past, -⟩ | ⟨-, passed⟩
    · exact absurd past inTime
    · exact passed

theorem isBudget_second : isBudget (.whole 1000) = true := by decide +kernel

/-- A minute that is asked for inside a second, and left by a fault, does not make the second longer. -/
theorem second_outlasts_nested_minute : ∃ guard, guard = Guard.run
    [.enter (.whole 1000) 0, .enter (.whole 60000) (1 / 2), .check 1, .exit (some .divisionByZero)] ∧
      guard.depth = 1 ∧ guard.expiry = some (.second 1) ∧ guard.check 1 = .ok () ∧
      guard.check (3 / 2) = .error (.deadlineExceeded "1000") := by
  have opened : openBlocks
      [.enter (.whole 1000) 0, .enter (.whole 60000) (1 / 2), .check 1, .exit (some .divisionByZero)] =
        some [⟨.whole 1000, 0⟩] := by
    simp [openBlocks, openAfter, isBudget_second]
  obtain ⟨depth, -, limited, past, inTime, -⟩ := guard_follows_outermost_block _ _ opened
  obtain ⟨ms, measured, shown, expiry⟩ := limited ⟨.whole 1000, 0⟩ rfl (by decide : (0 : ℤ) < 1000)
  have second : (Datum.whole 1000).measure = .ok 1000 := by rfl
  have moment : ends 0 1000 = .second 1 := by decide +kernel
  have text : (Datum.whole 1000).shown = .ok "1000" := by
    simp only [Datum.shown, Datum.described, Datum.integerText]
    exact if_pos (by decide +kernel)
  rw [← Except.ok.inj (second.symm.trans measured), moment] at expiry
  rw [expiry] at past inTime
  rw [← Except.ok.inj (text.symm.trans shown)] at past
  exact ⟨_, rfl, depth, expiry, inTime 1 (by decide : ¬ (1 : ℚ) < 1),
    past (3 / 2) (by decide +kernel : (1 : ℚ) < 3 / 2)⟩

end ExactAlgebra.Deadline
