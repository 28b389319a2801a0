import ExactAlgebra.Proofs.Inversion
import ExactAlgebra.Session.Evaluation
import Mathlib

/-! Programs that need no checks. What reading puts in postfix order leaves one value more on any
stack, and each of its instructions finds its operands; so a machine that never looks whether they are
there, nor how many values are left over, comes to the same. -/
namespace ExactAlgebra
open Reader

namespace Reader

def Instruction.taken : Instruction → Int
  | operator op => op.arity
  | call _ count _ | vector count => count
  | number _ | name .. | unknown _ => 0

/-- An instruction of a machine finds its operands on a stack of so many values. An operator has at
least one operand, a call or a list may have none. -/
def Instruction.Fits (height : ℕ) : Instruction → Prop
  | operator op => 0 < op.arity ∧ op.arity ≤ height
  | call _ count _ | vector count => 0 ≤ count ∧ count ≤ height
  | number _ | name .. => True
  | unknown _ => False

/-- On a stack of `height` values all instructions find their operands, and there are `top` values in
the end. -/
def Reaches (height : ℕ) : Program → ℕ → Prop
  | [], top => height = top
  | instruction :: rest, top =>
    instruction.Fits height ∧ Reaches (height - instruction.taken.toNat + 1) rest top

def PutsOne (program : Program) : Prop := ∀ height, Reaches height program (height + 1)

/-- Operators between operands have two of them, all others have one. -/
def Grammar.Regular (grammar : Grammar) : Prop :=
  ∀ symbol fixity op, grammar.operator? symbol fixity = some op →
    op.arity = if fixity = .between then 2 else 1

variable {grammar : Grammar} {program p q : Program}

theorem reaches_append {height top : ℕ} :
    Reaches height (p ++ q) top ↔ ∃ middle, Reaches height p middle ∧ Reaches middle q top := by
  induction p generalizing height with
  | nil => simp [Reaches]
  | cons instruction p ih => simp only [List.cons_append, Reaches, ih, and_assoc, exists_and_left]

theorem putsOne_number (text : String) : PutsOne [.number text] := fun _ => ⟨trivial, rfl⟩

theorem putsOne_name (text : String) (position : Nat) : PutsOne [.name text position] :=
  fun _ => ⟨trivial, rfl⟩

/-- Programs one after the other put one value each. -/
theorem reaches_flatten {programs : List Program} (each : ∀ p ∈ programs, PutsOne p) (height : ℕ) :
    Reaches height programs.flatten (height + programs.length) := by
  induction programs generalizing height with
  | nil => rfl
  | cons p rest ih =>
    obtain ⟨first, later⟩ := List.forall_mem_cons.mp each
    have top : height + (p :: rest).length = height + 1 + rest.length := by
      rw [List.length_cons]
      omega
    rw [List.flatten_cons, reaches_append, top]
    exact ⟨height + 1, first height, ih later (height + 1)⟩

/-- An instruction that takes as many values as programs in front of it have put. -/
theorem putsOne_flatten {programs : List Program} {instruction : Instruction}
    (each : ∀ p ∈ programs, PutsOne p) (taken : instruction.taken = programs.length)
    (fits : ∀ height, instruction.Fits (height + programs.length)) :
    PutsOne (programs.flatten ++ [instruction]) := by
  intro height
  refine reaches_append.mpr ⟨height + programs.length, reaches_flatten each height, fits height, ?_⟩
  rw [taken, Int.toNat_natCast, Nat.add_sub_cancel]
  rfl

theorem PutsOne.unary (puts : PutsOne p) {op : Operator} (arity : op.arity = 1) :
    PutsOne (p ++ [.operator op]) := by
  have whole : p = [p].flatten := by simp
  rw [whole]
  refine putsOne_flatten (List.forall_mem_singleton.mpr puts) arity fun height => ?_
  simp only [Instruction.Fits, arity, List.length_singleton]
  omega

theorem PutsOne.binary (putsP : PutsOne p) (putsQ : PutsOne q) {op : Operator} (arity : op.arity = 2) :
    PutsOne (p ++ q ++ [.operator op]) := by
  have whole : p ++ q = [p, q].flatten := by simp
  rw [whole]
  refine putsOne_flatten (by simp [putsP, putsQ]) arity fun height => ?_
  simp only [Instruction.Fits, arity, List.length_cons, List.length_nil]
  omega

theorem putsOne_takePostfix (regular : grammar.Regular) (puts : PutsOne program)
    (tokens : List Token) : PutsOne (grammar.takePostfix program tokens).1 := by
  induction tokens generalizing program with
  | nil => exact puts
  | cons token rest ih =>
    cases token with
    | operator symbol position =>
      rw [Grammar.takePostfix]
      split
      · exact puts
      next op found =>
        dsimp only
        split
        · exact puts
        · exact ih (puts.unary (regular symbol .after op found))
    | _ => exact puts

/-- Whatever is read with so much work puts one value. -/
structure ReadsOne (grammar : Grammar) (n : Nat) : Prop where
  expression : ∀ {least tokens program rest},
    grammar.expression n least tokens = .ok (program, rest) → PutsOne program
  climb : ∀ {least first tokens program rest}, PutsOne first →
    grammar.climb n least first tokens = .ok (program, rest) → PutsOne program
  complete : ∀ {tokens program}, grammar.complete n tokens = .ok program → PutsOne program

theorem IsPrimary.putsOne {n : Nat} (reads : ReadsOne grammar n) (primary : IsPrimary grammar n program) :
    PutsOne program := by
  have pieces {args : List (List Token)} {programs : List Program}
      (read : args.mapM (grammar.complete n) = .ok programs) :
      (∀ p ∈ programs, PutsOne p) ∧ args.length = programs.length := by
    refine ⟨fun p member => ?_, ?_⟩
    · obtain ⟨arg, -, complete⟩ := Outcome.mem_of_mapM read member
      exact reads.complete complete
    · exact Outcome.length_of_mapM read
  cases primary with
  | number text => exact putsOne_number text
  | name text position => exact putsOne_name text position
  | call name position read =>
    obtain ⟨each, length⟩ := pieces read
    refine putsOne_flatten each (congrArg Nat.cast length) fun height => ?_
    simp only [Instruction.Fits, length]
    omega
  | @application least tokens left inner name position read =>
    have whole : inner = [inner].flatten := by simp
    rw [whole]
    refine putsOne_flatten (List.forall_mem_singleton.mpr (reads.expression read)) rfl fun height => ?_
    simp only [Instruction.Fits, List.length_singleton]
    omega
  | group read => exact reads.complete read
  | vector read =>
    obtain ⟨each, length⟩ := pieces read
    refine putsOne_flatten each (congrArg Nat.cast length) fun height => ?_
    simp only [Instruction.Fits, length]
    omega

theorem ReadsOne.operand {n : Nat} (regular : grammar.Regular) (less : ∀ m < n, ReadsOne grammar m)
    {tokens rest : List Token} (returned : grammar.operand n tokens = .ok (program, rest)) :
    PutsOne program := by
  have primary {token : Token} {behind : List Token} (starts : token.startsOperand = true)
      (returned : grammar.operand n (token :: behind) = .ok (program, rest)) : PutsOne program := by
    obtain ⟨m, inner, after, rfl, read, postfixed⟩ := operand_primary starts returned
    obtain ⟨k, rfl, primary⟩ := primary_ok read
    have puts := putsOne_takePostfix regular (primary.putsOne (less k (by omega))) after
    rwa [postfixed] at puts
  cases tokens with
  | nil => cases n <;> cases returned
  | cons token behind =>
    cases token with
    | operator symbol position =>
      obtain ⟨m, op, inner, rfl, found, read, rfl⟩ := operand_operator returned
      exact ((less m (Nat.lt_succ_self m)).expression read).unary (regular symbol .before op found)
    | comma =>
      match n with
      | 0 => cases returned
      | 1 => cases returned
      | _ + 2 => cases returned
    | number | name | group => exact primary rfl returned

theorem readsOne (regular : grammar.Regular) (n : Nat) : ReadsOne grammar n := by
  induction n using Nat.strongRecOn with
  | ind n less =>
    refine ⟨fun returned => ?_, fun puts returned => ?_, fun returned => ?_⟩
    · obtain ⟨m, operand, behind, read, rfl, climbed⟩ := expression_ok returned
      refine (less m (Nat.lt_succ_self m)).climb ?_ climbed
      exact ReadsOne.operand regular (fun k small => less k (by omega)) read
    · obtain ⟨m, rfl, climb⟩ := climb_ok returned
      have inside := less m (Nat.lt_succ_self m)
      cases climb with
      | stop => exact puts
      | goOn found read climbed =>
        exact inside.climb (puts.binary (inside.expression read) (regular _ .between _ found)) climbed
    · obtain ⟨m, rfl, read⟩ := complete_ok returned
      exact (less m (Nat.lt_succ_self m)).expression read

theorem regular_of_usual (usual : grammar.operators = Operator.initial) : grammar.Regular := by
  have entries : ∀ entry ∈ Operator.initial,
      entry.2.arity = if entry.1.2 = .between then 2 else 1 := by
    simp [Operator.initial, Operator.binary, Operator.unary]
  intro symbol fixity op found
  rw [Grammar.operator?, usual] at found
  obtain ⟨before, after, shape, -⟩ := List.lookup_eq_some_iff.mp found
  exact entries ((symbol, fixity), op) (shape ▸ by simp)

end Reader

namespace Machine

variable {α β : Type} {x : Machine α}

/-- Some run of the computation ends with this. -/
def Leaves (x : Machine α) (a : α) : Prop :=
  ∃ sightings later, x.run.run sightings = (.ok a, later)

theorem run_bind (x : Machine α) (f : α → Machine β) (sightings : List Sighting) :
    (x >>= f).run.run sightings =
      match x.run.run sightings with
      | (.ok a, later) => (f a).run.run later
      | (.error fault, later) => (.error fault, later) := by
  change (fun reached : Except Fault α × List Sighting =>
    ExceptT.bindCont f reached.1 reached.2) (x.run.run sightings) = _
  rcases x.run.run sightings with ⟨_ | _, _⟩ <;> rfl

theorem Leaves.pure {a b : α} (leaves : Leaves (Pure.pure a) b) : b = a := by
  obtain ⟨sightings, later, run⟩ := leaves
  cases run
  rfl

theorem Leaves.throw {fault : Fault} {a : α} (leaves : Leaves (MonadExcept.throw fault) a) : False := by
  obtain ⟨sightings, later, run⟩ := leaves
  cases run

/-- A composed computation ended, so its parts did. -/
theorem Leaves.bind {f : α → Machine β} {b : β} (leaves : Leaves (x >>= f) b) :
    ∃ a, Leaves x a ∧ Leaves (f a) b := by
  obtain ⟨sightings, later, run⟩ := leaves
  rw [run_bind] at run
  split at run
  next a middle first => exact ⟨a, ⟨sightings, middle, first⟩, middle, later, run⟩
  next => cases run

/-- Computations that go on alike from all that a first one can leave. -/
theorem bind_congr {f g : α → Machine β} (same : ∀ a, Leaves x a → f a = g a) :
    x >>= f = x >>= g := by
  refine ExceptT.ext (StateT.ext fun sightings => ?_)
  rw [run_bind, run_bind]
  split
  next a later run => rw [same a ⟨sightings, later, run⟩]
  next => rfl

end Machine

namespace Session
open Machine

variable {session : Session} {resolve : Resolver} {stack next : Stack} {program : Program}
  {instruction : Instruction}

/-- Carries out one instruction without a look whether its operands are there. -/
def stepUnchecked (session : Session) (resolve : Resolver) (stack : Stack) :
    Instruction → Machine Stack
  | .operator op => do
    let (rest, operands) := stack.splitOperands op.arity
    session.notify op.name operands
    return rest ++ [← session.runEngine (op.action.run operands)]
  | instruction => session.step resolve stack instruction

/-- Runs a program without a look whether operands are there and how many values are left. -/
def executeUnchecked (session : Session) (resolve : Resolver) (program : Program) : Machine Value := do
  return (← program.foldlM (session.stepUnchecked resolve) []).headD (.list [])

/-- An instruction that finds its operands passes the check. -/
theorem step_eq_stepUnchecked (fits : instruction.Fits stack.length) :
    session.step resolve stack instruction = session.stepUnchecked resolve stack instruction := by
  cases instruction with
  | operator op =>
    have enough : ¬ (stack.length : Int) < op.arity := not_lt.mpr fits.2
    unfold step stepUnchecked
    simp only [if_neg enough]
  | _ => rfl

theorem length_splitOperands {arity : Int} (some : 0 < arity) :
    (stack.splitOperands arity).1.length = stack.length - arity.toNat := by
  unfold Stack.splitOperands
  rw [if_pos some, List.length_take]
  omega

theorem length_split {count : Int} (fits : 0 ≤ count ∧ count ≤ stack.length) :
    (stack.split count).1.length = stack.length - count.toNat := by
  unfold Stack.split
  split
  next none =>
    have zero : count.toNat = 0 := by omega
    rw [zero, Nat.sub_zero]
  next =>
    have enough : count.toNat ≤ stack.length := by omega
    simp only [if_pos enough, List.length_take]
    omega

theorem length_of_pushed {rest : Stack} {value : Value}
    (leaves : Leaves (pure (rest ++ [value])) next) : next.length = rest.length + 1 := by
  rw [leaves.pure, List.length_append]
  rfl

/-- Instead of its operands an instruction leaves one value. -/
theorem length_of_step (fits : instruction.Fits stack.length)
    (leaves : Leaves (session.step resolve stack instruction) next) :
    next.length = stack.length - instruction.taken.toNat + 1 := by
  cases instruction with
  | number text =>
    obtain ⟨value, -, leaves⟩ := leaves.bind
    exact length_of_pushed leaves
  | name name position =>
    obtain ⟨value, -, leaves⟩ := leaves.bind
    exact length_of_pushed leaves
  | operator op =>
    rw [step_eq_stepUnchecked fits] at leaves
    obtain ⟨_, -, leaves⟩ := leaves.bind
    obtain ⟨value, -, leaves⟩ := leaves.bind
    exact (length_of_pushed leaves).trans (congrArg (· + 1) (length_splitOperands fits.1))
  | call name count position =>
    unfold step at leaves
    dsimp only at leaves
    split at leaves
    · exact (leaves.bind.choose_spec.1.throw).elim
    · obtain ⟨_, -, leaves⟩ := leaves.bind
      obtain ⟨value, -, leaves⟩ := leaves.bind
      exact (length_of_pushed leaves).trans (congrArg (· + 1) (length_split fits))
  | vector count =>
    exact (length_of_pushed leaves).trans (congrArg (· + 1) (length_split fits))
  | unknown => exact fits.elim

/-- A run that was reached at its height goes on to the height of its end. -/
theorem length_of_run {top : ℕ} (reaches : Reaches stack.length program top)
    (leaves : Leaves (program.foldlM (session.step resolve) stack) next) : next.length = top := by
  induction program generalizing stack with
  | nil => rw [leaves.pure, reaches]
  | cons instruction rest ih =>
    obtain ⟨fits, reaches⟩ := reaches
    obtain ⟨middle, first, leaves⟩ := leaves.bind
    exact ih (length_of_step fits first ▸ reaches) leaves

theorem run_eq_runUnchecked {top : ℕ} (reaches : Reaches stack.length program top) :
    program.foldlM (session.step resolve) stack =
      program.foldlM (session.stepUnchecked resolve) stack := by
  induction program generalizing stack with
  | nil => rfl
  | cons instruction rest ih =>
    obtain ⟨fits, reaches⟩ := reaches
    rw [List.foldlM_cons, List.foldlM_cons, ← step_eq_stepUnchecked fits]
    exact bind_congr fun middle first => ih (length_of_step fits first ▸ reaches)

/-- What reading puts in postfix order is stack safe. At every instruction of the program its operands
are on the stack, and in the end there is one value; so the checks of the machine refuse nothing, and
running without them comes to the same. -/
theorem programs_are_stack_safe (usual : session.operators = Operator.initial) {tokens : List Token}
    (returned : session.grammar.program tokens = .ok program) (resolve : Resolver) :
    (∀ before instruction after, program = before ++ instruction :: after →
      ∀ stack, Leaves (before.foldlM (session.step resolve) []) stack →
        instruction.Fits stack.length) ∧
    (∀ stack, Leaves (program.foldlM (session.step resolve) []) stack → ∃ value, stack = [value]) ∧
    session.execute resolve program = session.executeUnchecked resolve program := by
  have regular : session.grammar.Regular := regular_of_usual usual
  have reaches : Reaches ([] : Stack).length program 1 := (readsOne regular _).complete returned 0
  have single : ∀ stack, Leaves (program.foldlM (session.step resolve) []) stack →
      ∃ value, stack = [value] :=
    fun stack leaves => List.length_eq_one_iff.mp (length_of_run reaches leaves)
  refine ⟨?_, single, ?_⟩
  · rintro before instruction after rfl stack leaves
    obtain ⟨height, first, fits, -⟩ := reaches_append.mp reaches
    rwa [length_of_run first leaves]
  · unfold execute executeUnchecked
    rw [← run_eq_runUnchecked reaches]
    refine bind_congr fun stack leaves => ?_
    obtain ⟨value, rfl⟩ := single stack leaves
    rfl

/-- The tokens of `max(2, -x!, [])`. -/
def maximumTokens : List Token :=
  [.name "max" 0, .group "(" 3 [.number "2" 4, .comma 5, .operator "-" 7, .name "x" 8,
    .operator "!" 9, .comma 10, .group "[" 12 []]]

theorem maximum_is_stack_safe :
    ∃ program, initial.grammar.program maximumTokens = .ok program ∧
      (∀ before instruction after, program = before ++ instruction :: after →
        ∀ stack, Leaves (before.foldlM (initial.step (initial.resolver [])) []) stack →
          instruction.Fits stack.length) ∧
      (∀ stack, Leaves (program.foldlM (initial.step (initial.resolver [])) []) stack →
        ∃ value, stack = [value]) ∧
      initial.execute (initial.resolver []) program =
        initial.executeUnchecked (initial.resolver []) program := by
  have returned : initial.grammar.program maximumTokens =
      .ok [.number "2", .name "x" 8, .operator (.unary "!" "factorial" 7 .factorial .after),
        .operator (.unary "-" "negate" 5 .negate .before), .vector 0, .call "max" 3 0] := by
    rfl
  exact ⟨_, returned, programs_are_stack_safe rfl returned (initial.resolver [])⟩

end Session
end ExactAlgebra
