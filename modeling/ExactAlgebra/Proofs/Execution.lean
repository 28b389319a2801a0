import ExactAlgebra.Proofs.NormalForm
import ExactAlgebra.Proofs.Precedence
import ExactAlgebra.Proofs.Preparation
import ExactAlgebra.Session.Evaluation
import Mathlib

/-! Running arithmetic. A postfix program of numbers, plain names and arithmetic signs computes with
expressions alone, whatever lies below on the stack; so a text that compiles to such a program has the
value that the arithmetic gives. -/
namespace ExactAlgebra.Reader
open ExactAlgebra.Expr

def Sign.apply : Sign → Expr → Expr → Except Fault Expr
  | plus => add
  | minus => sub
  | times => mul
  | divided => div
  | raised => pow

def affirmation : Operator := .unary "+" "positive" 5 .positive .before

/-- What a program of numbers, plain names and arithmetic signs computes. -/
inductive Computes : Program → Except Fault Expr → Prop
  | number (text : String) : Computes [.number text] (do return .number (← Rational.ofText text))
  | name {name : String} (plain : PlainName name) (position : Nat) :
      Computes [.name name position] (.ok (.bare name))
  | negative {p : Program} {x : Except Fault Expr} : Computes p x →
      Computes (p ++ [.operator negation]) (do return (← x).neg)
  | positive {p : Program} {x : Except Fault Expr} : Computes p x →
      Computes (p ++ [.operator affirmation]) x
  | binary (sign : Sign) {p q : Program} {x y : Except Fault Expr} : Computes p x → Computes q y →
      Computes (p ++ q ++ [.operator sign.operator]) (do sign.apply (← x) (← y))

def Phrase.compute : Phrase → Except Fault Expr
  | number n => do return .number (← Rational.ofText (toString n))
  | name text => .ok (.bare text)
  | negative a => do return (← a.compute).neg
  | binary sign a b => do sign.apply (← a.compute) (← b.compute)
  | group a => a.compute

theorem Phrase.computes {phrase : Phrase} (named : phrase.Named) (position : Nat) :
    Computes (phrase.program position) phrase.compute := by
  induction phrase generalizing position with
  | number n => exact .number _
  | name text => exact .name named position
  | negative a ih => exact .negative (ih named _)
  | binary sign a b ihA ihB => exact .binary sign (ihA named.1 _) (ihB named.2 _)
  | group a ih => exact ih named _

theorem wellFormed_apply {sign : Sign} {a b r : Expr} (formedA : a.WellFormed) (formedB : b.WellFormed)
    (returned : sign.apply a b = .ok r) : r.WellFormed := by
  cases sign with
  | plus => exact add_wellFormed formedA formedB returned
  | minus => exact sub_wellFormed formedA formedB returned
  | times => exact mul_wellFormed formedA formedB returned
  | divided => exact div_wellFormed formedA formedB returned
  | raised => exact pow_wellFormed formedA formedB returned

theorem Computes.wellFormed {p : Program} {x : Except Fault Expr} (computes : Computes p x) {e : Expr}
    (returned : x = .ok e) : e.WellFormed := by
  induction computes generalizing e with
  | number text =>
    obtain ⟨value, _, same⟩ := Outcome.bind_ok returned
    cases same
    trivial
  | name plain =>
    cases returned
    exact wellFormed_bare plain.spelled (isIntegerText_identifier plain.spelled)
  | negative _ ih =>
    obtain ⟨a, first, same⟩ := Outcome.bind_ok returned
    cases same
    exact (ih first).neg
  | positive _ ih => exact ih returned
  | binary sign _ _ ihX ihY =>
    obtain ⟨a, first, rest⟩ := Outcome.bind_ok returned
    obtain ⟨b, second, applied⟩ := Outcome.bind_ok rest
    exact wellFormed_apply (ihX first) (ihY second) applied

theorem isCopyable_of_wellFormed {e : Expr} (formed : e.WellFormed) : e.isCopyable = true := by
  have all {es : List Expr} (each : ∀ e ∈ es, e.isCopyable = true) : allCopyable es = true := by
    induction es with
    | nil => rfl
    | cons e es ih =>
      rw [allCopyable, each e List.mem_cons_self, ih fun f later => each f (List.mem_cons_of_mem _ later)]
      rfl
  induction e using Expr.induction with
  | number | symbol => rfl
  | call c name args p ih =>
    exact all fun a member => ih a member (allWellFormed_iff.mp formed.2.2.2.2 a member)
  | sum c terms p ih => exact all fun t member => ih t member (allWellFormed_iff.mp formed.2.2.2 t member)
  | product c factors ih => exact all fun f member => ih f member (allWellFormed_iff.mp formed.2.2 f member)
  | exponential c base exponent ihBase ihExponent =>
    rw [isCopyable, ihBase formed.2.2.1, ihExponent formed.2.2.2]
    rfl
  | foreign => exact formed.elim

section Operators

variable {scope : Scope} {a b : Expr}

theorem own_eq {v : Value} (copyable : v.isCopyable = true) : v.own = pure () := by
  unfold Value.own
  simp only [copyable, Bool.not_true, Bool.and_false]
  rfl

/-- A step of the arithmetic, carried out in a scope. -/
theorem runIn_return (x : Except Fault Expr) :
    Engine.runIn scope (do return Value.expr (← (liftM x : Engine Expr))) =
      (do return .expr (← x)) := by
  cases x <;> rfl

theorem runIn_add (copyA : a.isCopyable = true) (copyB : b.isCopyable = true) :
    (Value.add (.expr a) (.expr b)).runIn scope = (do return .expr (← add a b)) := by
  unfold Value.add
  rw [own_eq (v := .expr a) copyA, own_eq (v := .expr b) copyB]
  change Engine.runIn scope (if a.isZero then pure (.expr b) else do return Value.expr (← add a b)) = _
  split
  next zero =>
    have same : add a b = .ok b := if_pos zero
    rw [same]
    rfl
  next => exact runIn_return _

theorem runIn_neg (copyA : a.isCopyable = true) :
    (Value.neg (.expr a)).runIn scope = .ok (.expr a.neg) := by
  unfold Value.neg
  rw [own_eq (v := .expr a) copyA]
  rfl

theorem runIn_sub (copyA : a.isCopyable = true) (copyB : b.isCopyable = true) :
    (Value.sub (.expr a) (.expr b)).runIn scope = (do return .expr (← sub a b)) := by
  unfold Value.sub Value.neg
  rw [own_eq (v := .expr a) copyA, own_eq (v := .expr b) copyB]
  exact runIn_return _

theorem runIn_mul (copyA : a.isCopyable = true) (copyB : b.isCopyable = true) :
    (Value.mul (.expr a) (.expr b)).runIn scope = (do return .expr (← mul a b)) := by
  unfold Value.mul
  rw [own_eq (v := .expr a) copyA, own_eq (v := .expr b) copyB]
  change Engine.runIn scope (if a.isZero then pure (.expr zero) else do return Value.expr (← mul a b)) = _
  split
  next vanishes =>
    rw [mul_of_isZero (by rw [vanishes, Bool.true_or])]
    rfl
  next => exact runIn_return _

theorem runIn_div (copyA : a.isCopyable = true) (copyB : b.isCopyable = true) :
    (Value.div (.expr a) (.expr b)).runIn scope = (do return .expr (← div a b)) := by
  unfold Value.div
  rw [own_eq (v := .expr a) copyA, own_eq (v := .expr b) copyB]
  change Engine.runIn scope (if b.isZero then throw .divisionByZero
    else do return Value.expr (← div a b)) = _
  split
  next zero =>
    have same : div a b = .error .divisionByZero := if_pos zero
    rw [same]
    rfl
  next => exact runIn_return _

theorem runIn_pow (copyA : a.isCopyable = true) (copyB : b.isCopyable = true) :
    (Value.pow (.expr a) (.expr b)).runIn scope = (do return .expr (← pow a b)) := by
  unfold Value.pow
  rw [own_eq (v := .expr a) copyA, own_eq (v := .expr b) copyB]
  change Engine.runIn scope (if b.isOne then pure (.expr a) else do return Value.expr (← pow a b)) = _
  split
  next one =>
    obtain ⟨n, limit⟩ := enough_for_one a b
    have same : pow a b = .ok a := by
      cases b with
      | number c =>
        have unit : c = 1 := by simpa [isOne] using one
        rw [pow, limit]
        change powRatWithin (n + 1) a c = _
        unfold powRatWithin
        rw [unit, if_neg one_ne_zero, if_pos rfl]
      | _ => cases one
    rw [same]
    rfl
  next => exact runIn_return _

theorem runIn_sign (sign : Sign) (copyA : a.isCopyable = true) (copyB : b.isCopyable = true) :
    (sign.operator.action.run [.expr a, .expr b]).runIn scope = (do return .expr (← sign.apply a b)) := by
  cases sign with
  | plus => exact runIn_add copyA copyB
  | minus => exact runIn_sub copyA copyB
  | times => exact runIn_mul copyA copyB
  | divided => exact runIn_div copyA copyB
  | raised => exact runIn_pow copyA copyB

end Operators

theorem ofExcept_bind {α β : Type} (x : Except Fault α) (f : α → Except Fault β) :
    (Machine.ofExcept x >>= fun a => Machine.ofExcept (f a)) = Machine.ofExcept (x >>= f) := by
  cases x <;> rfl

section Programs

variable {resolve : Session.Resolver} {stack : Stack} {a b : Expr}

theorem splitOperands_append (stack : Stack) (operands : List Value) (some : operands ≠ []) :
    (stack ++ operands).splitOperands operands.length = (stack, operands) := by
  have positive : (0 : Int) < operands.length := by
    exact_mod_cast List.length_pos_iff.mpr some
  unfold Stack.splitOperands
  rw [if_pos positive, Int.toNat_natCast, List.length_append, Nat.add_sub_cancel]
  simp

/-- An operator takes its operands off the stack. -/
theorem step_operator {op : Operator} {operands : List Value} (some : operands ≠ [])
    (arity : op.arity = operands.length) :
    Session.initial.step resolve (stack ++ operands) (.operator op) =
      Machine.ofExcept (do return stack ++ [← (op.action.run operands).runIn Session.initial.scope]) := by
  have enough : ¬ ((stack ++ operands).length : Int) < operands.length := by
    rw [List.length_append]
    omega
  unfold Session.step
  simp only [arity, if_neg enough, splitOperands_append stack operands some]
  change (do
    let value ← Machine.ofExcept ((op.action.run operands).runIn Session.initial.scope)
    Machine.ofExcept (.ok (stack ++ [value]))) = _
  exact ofExcept_bind _ _

theorem step_name {name : String} (plain : PlainName name) (position : Nat) :
    Session.initial.step (Session.initial.resolver []) stack (.name name position) =
      Machine.ofExcept (.ok (stack ++ [.expr (.bare name)])) := by
  have found : Session.initial.resolveName name position = .ok (.expr (.bare name)) := by
    have constant : Session.initial.constants.lookup name = none := by
      have other := plain.notConstant
      simp only [isConstantName, Bool.or_eq_false_iff] at other
      simp [Session.initial, Session.withSettings, List.lookup, other]
    have unknown : (Session.initial.functions.lookup name).isSome = false := plain.notFunction
    have spelled : Text.isName name = true := by
      have named : Text.takeName? name.toList = some (name.toList, []) := plain.spelled
      rw [Text.isName, named]
    unfold Session.resolveName
    rw [constant]
    change (if (Session.initial.functions.lookup name).isSome then _ else _) = _
    rw [unknown, spelled]
    rfl
  change (Machine.ofExcept (Session.initial.resolveName name position) >>= fun value =>
    Machine.ofExcept (.ok (stack ++ [value]))) = _
  rw [found]
  rfl

/-- Whatever lies below on the stack, the program puts the outcome on top of it. -/
def Leaves (resolve : Session.Resolver) (p : Program) (x : Except Fault Expr) : Prop :=
  ∀ stack, p.foldlM (Session.initial.step resolve) stack =
    Machine.ofExcept (do return stack ++ [.expr (← x)])

theorem leaves_number (text : String) :
    Leaves resolve [.number text] (do return .number (← Rational.ofText text)) := by
  intro stack
  simp only [List.foldlM_cons, List.foldlM_nil, Session.step]
  cases Rational.ofText text <;> rfl

section Steps

variable {p q : Program} {x y : Except Fault Expr}

theorem Leaves.negative (leaves : Leaves resolve p x) (copy : ∀ a, x = .ok a → a.isCopyable = true) :
    Leaves resolve (p ++ [.operator negation]) (do return (← x).neg) := by
  intro stack
  rw [List.foldlM_append, leaves]
  cases result : x with
  | error => rfl
  | ok a =>
    have negated : (negation.action.run [.expr a]).runIn Session.initial.scope = .ok (.expr a.neg) :=
      runIn_neg (copy a result)
    change [Instruction.operator negation].foldlM (Session.initial.step resolve) (stack ++ [.expr a]) = _
    rw [List.foldlM_cons, step_operator (by simp) rfl, negated]
    rfl

theorem Leaves.positive (leaves : Leaves resolve p x) :
    Leaves resolve (p ++ [.operator affirmation]) x := by
  intro stack
  rw [List.foldlM_append, leaves]
  cases x with
  | error => rfl
  | ok a =>
    change [Instruction.operator affirmation].foldlM (Session.initial.step resolve) (stack ++ [.expr a]) = _
    rw [List.foldlM_cons, step_operator (by simp) rfl]
    rfl

theorem Leaves.binary {sign : Sign} (leavesP : Leaves resolve p x) (leavesQ : Leaves resolve q y)
    (copyX : ∀ a, x = .ok a → a.isCopyable = true) (copyY : ∀ b, y = .ok b → b.isCopyable = true) :
    Leaves resolve (p ++ q ++ [.operator sign.operator]) (do sign.apply (← x) (← y)) := by
  intro stack
  rw [List.foldlM_append, List.foldlM_append, leavesP]
  cases resultX : x with
  | error => rfl
  | ok a =>
    change (q.foldlM _ (stack ++ [.expr a]) >>= _) = _
    rw [leavesQ]
    cases resultY : y with
    | error => rfl
    | ok b =>
      change [Instruction.operator sign.operator].foldlM (Session.initial.step resolve)
        (stack ++ [.expr a] ++ [.expr b]) = _
      rw [List.append_assoc, List.singleton_append, List.foldlM_cons,
        step_operator (by simp) (by cases sign <;> rfl), runIn_sign sign (copyX a resultX) (copyY b resultY)]
      change _ = Machine.ofExcept (do return stack ++ [.expr (← sign.apply a b)])
      cases sign.apply a b <;> rfl

end Steps

/-- A program puts what it computes on top of the stack. -/
theorem Computes.foldlM {p : Program} {x : Except Fault Expr} (computes : Computes p x) :
    Leaves (Session.initial.resolver []) p x := by
  have copy {p : Program} {x : Except Fault Expr} (computes : Computes p x) (a : Expr) (result : x = .ok a) :
      a.isCopyable = true := isCopyable_of_wellFormed (computes.wellFormed result)
  induction computes with
  | number text => exact leaves_number text
  | name plain position =>
    intro stack
    rw [List.foldlM_cons, step_name plain]
    rfl
  | negative computes ih => exact ih.negative (copy computes)
  | positive _ ih => exact ih.positive
  | binary sign computesX computesY ihX ihY => exact ihX.binary ihY (copy computesX) (copy computesY)

/-- What is left on an empty stack is the value of the program. -/
theorem Leaves.execute {p : Program} {x : Except Fault Expr} (leaves : Leaves resolve p x) :
    Session.initial.execute resolve p = Machine.ofExcept (do return .expr (← x)) := by
  unfold Session.execute
  rw [leaves]
  cases x <;> rfl

end Programs

/-- The value of a text is what its program computes. -/
theorem parse_computes {text : String} {program : Program} {x : Except Fault Expr}
    (compiled : Session.initial.compile text = .ok program) (computes : Computes program x) :
    (Session.initial.parse text []).result = (do return .expr (← x)) := by
  change (Machine.result (Machine.ofExcept (Session.initial.compile text) >>= fun program =>
    Session.initial.execute (Session.initial.resolver []) program)) = _
  rw [compiled]
  change Machine.result (Session.initial.execute (Session.initial.resolver []) program) = _
  rw [computes.foldlM.execute]
  rfl

/-- A phrase is compiled as it is bracketed. -/
theorem compile_phrase {phrase : Phrase} (named : phrase.Named) (fits : phrase.Fits) {text : String}
    (written : text.toList = phrase.chars) (short : text.length ≤ 10000) :
    Session.initial.compile text = .ok (phrase.program 0) := by
  have plain : phrase.Plain Session.initial.grammar := by
    clear fits written
    induction phrase with
    | number => trivial
    | name text => exact PlainName.notFunction named
    | negative a ih => exact ih named
    | binary sign a b ihA ihB => exact ⟨ihA named.1, ihB named.2⟩
    | group a ih => exact ih named
  unfold Session.compile
  rw [preprocess_phrase named written short]
  change (Session.initial.lexicon.tokenize text >>= Session.initial.grammar.program) = _
  rw [tokenize_phrase phrase named.spelled written]
  exact program_phrase rfl phrase plain fits 0

end ExactAlgebra.Reader
