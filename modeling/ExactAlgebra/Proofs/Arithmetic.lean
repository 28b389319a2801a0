import ExactAlgebra.Proofs.Inversion
import ExactAlgebra.Proofs.Closure
import ExactAlgebra.Proofs.Restoration
import Mathlib

/-! Arithmetic read from tokens. Numbers, plain names, the signs of arithmetic, powers with whole numbers
as exponents and parentheses are read as a program of arithmetic, however the operands are arranged, and
such a program computes expressions of plain variables with whole powers. -/
namespace ExactAlgebra

namespace Expr
open Reader

/-- A name that is plain if it stands for an unknown. -/
def Expected (name : String) : Prop := isVariableName name = true → PlainName name

/-- An expression of numbers, plain variables, sums and products with whole powers. -/
structure IsOrdinary (e : Expr) : Prop where
  formed : e.WellFormed
  built : BuiltBy .reduced e
  names : NamesHave Expected e

theorem admits_expected : Admits Expected where
  imaginary named := absurd named (by decide)
  minusOne named := absurd named (by decide)
  digits n named := by
    rw [isVariableName, Text.isIntegerText_toString, Bool.not_true, Bool.and_false] at named
    cases named

/-- Zero has no powers but the positive ones. -/
theorem pow_zero_refused {p : Rat} (atMost : p ≤ 0) : ∃ fault, pow zero (number p) = .error fault := by
  obtain ⟨n, limit⟩ := enough_for_one zero (number p)
  rw [pow, limit]
  change ∃ fault, powRatWithin (n + 1) zero p = .error fault
  unfold powRatWithin
  split
  · exact ⟨_, rfl⟩
  next nonzero =>
    have negative : p < 0 := lt_of_le_of_ne atMost nonzero
    rw [if_neg (by linarith)]
    exact ⟨.divisionByZero, (if_pos rfl).trans (if_pos negative)⟩

namespace IsOrdinary

variable {a b r : Expr}

theorem number (v : Rat) : IsOrdinary (number v) := ⟨trivial, .number v, .number v⟩

theorem bare {name : String} (plain : PlainName name) : IsOrdinary (bare name) := by
  have digits := isIntegerText_identifier plain.spelled
  have named : isVariableName name = true := by simp [isVariableName, plain.notConstant, digits]
  exact ⟨wellFormed_bare plain.spelled digits, .symbol named rfl, .symbol fun _ => plain⟩

theorem neg (ordinary : IsOrdinary a) : IsOrdinary a.neg :=
  ⟨ordinary.formed.neg, ordinary.built.neg, ordinary.names.withCoeff _⟩

theorem add (ordinaryA : IsOrdinary a) (ordinaryB : IsOrdinary b) (returned : add a b = .ok r) :
    IsOrdinary r where
  formed := add_wellFormed ordinaryA.formed ordinaryB.formed returned
  built := (BuiltBy.keptByAddition Scheme.reduced_admitsSums).add ordinaryA.formed ordinaryB.formed
    ordinaryA.built ordinaryB.built returned
  names := ordinaryA.names.add admits_expected ordinaryB.names returned

theorem mul (ordinaryA : IsOrdinary a) (ordinaryB : IsOrdinary b) (returned : mul a b = .ok r) :
    IsOrdinary r where
  formed := mul_wellFormed ordinaryA.formed ordinaryB.formed returned
  built := by
    rcases mul_built ordinaryA.formed ordinaryB.formed ordinaryA.built ordinaryB.built with
      ⟨refused, _⟩ | ⟨product, found, multiplies⟩
    · rw [refused] at returned
      cases returned
    · obtain rfl : product = r := Except.ok.inj (found.symm.trans returned)
      exact multiplies.built
  names := ordinaryA.names.mul admits_expected ordinaryB.names returned

theorem div (ordinaryA : IsOrdinary a) (ordinaryB : IsOrdinary b) (returned : div a b = .ok r) :
    IsOrdinary r where
  formed := div_wellFormed ordinaryA.formed ordinaryB.formed returned
  built := by
    obtain ⟨some, _⟩ := Outcome.passed returned
    rcases div_built ordinaryA.formed ordinaryA.built ordinaryB.formed ordinaryB.built
      (Bool.eq_false_of_not_eq_true some) (reduced_closed rfl) with
      ⟨-, refused⟩ | ⟨refused, -⟩ | ⟨quotient, found, divides⟩
    · rw [refused] at returned
      cases returned
    · rw [refused] at returned
      cases returned
    · obtain rfl : quotient = r := Except.ok.inj (found.symm.trans returned)
      exact divides.built
  names := ordinaryA.names.div admits_expected ordinaryB.names returned

theorem pow {p : Rat} (ordinary : IsOrdinary a) (whole : p.den = 1) (returned : pow a (.number p) = .ok r) :
    IsOrdinary r where
  formed := pow_wellFormed ordinary.formed (b := .number p) trivial returned
  built := by
    rcases pow_built ordinary.formed ordinary.built whole (reduced_closed whole) with
      ⟨-, refused⟩ | ⟨zero, atMost⟩ | ⟨power, found, raises⟩
    · rw [refused] at returned
      cases returned
    · obtain ⟨fault, refused⟩ := pow_zero_refused atMost
      rw [eq_zero_of_isZero zero, refused] at returned
      cases returned
    · obtain rfl : power = r := Except.ok.inj (found.symm.trans returned)
      exact raises.built
  names := ordinary.names.pow admits_expected (.number p) returned

theorem apply {sign : Sign} (ordinaryA : IsOrdinary a) (ordinaryB : IsOrdinary b) (other : sign ≠ .raised)
    (returned : sign.apply a b = .ok r) : IsOrdinary r := by
  cases sign with
  | plus => exact ordinaryA.add ordinaryB returned
  | minus => exact ordinaryA.add ordinaryB.neg returned
  | times => exact ordinaryA.mul ordinaryB returned
  | divided => exact ordinaryA.div ordinaryB returned
  | raised => exact absurd rfl other

end IsOrdinary

end Expr

namespace Reader
open ExactAlgebra.Expr

def Yields (p : Program) : Prop := ∃ x, Computes p x ∧ ∀ e, x = .ok e → IsOrdinary e

def YieldsWhole (p : Program) : Prop :=
  ∃ x, Computes p x ∧ ∀ e, x = .ok e → ∃ v : Rat, e = .number v ∧ v.den = 1

variable {p q : Program}

theorem Yields.number (text : String) : Yields [.number text] := by
  refine ⟨_, .number text, fun e returned => ?_⟩
  obtain ⟨v, _, same⟩ := Outcome.bind_ok returned
  cases same
  exact .number v

theorem Yields.name {name : String} (plain : PlainName name) (position : Nat) :
    Yields [.name name position] := by
  refine ⟨_, .name plain position, fun e returned => ?_⟩
  cases returned
  exact .bare plain

theorem Yields.negative (yields : Yields p) : Yields (p ++ [.operator negation]) := by
  obtain ⟨x, computes, ordinary⟩ := yields
  refine ⟨_, .negative computes, fun e returned => ?_⟩
  obtain ⟨a, first, same⟩ := Outcome.bind_ok returned
  cases same
  exact (ordinary a first).neg

theorem Yields.positive (yields : Yields p) : Yields (p ++ [.operator affirmation]) := by
  obtain ⟨x, computes, ordinary⟩ := yields
  exact ⟨x, .positive computes, ordinary⟩

theorem Yields.binary {sign : Sign} (yieldsP : Yields p) (yieldsQ : Yields q) (other : sign ≠ .raised) :
    Yields (p ++ q ++ [.operator sign.operator]) := by
  obtain ⟨x, computesP, ordinaryX⟩ := yieldsP
  obtain ⟨y, computesQ, ordinaryY⟩ := yieldsQ
  refine ⟨_, .binary sign computesP computesQ, fun e returned => ?_⟩
  obtain ⟨a, first, returned⟩ := Outcome.bind_ok returned
  obtain ⟨b, second, returned⟩ := Outcome.bind_ok returned
  exact (ordinaryX a first).apply (ordinaryY b second) other returned

theorem Yields.power (yields : Yields p) (whole : YieldsWhole q) :
    Yields (p ++ q ++ [.operator Sign.raised.operator]) := by
  obtain ⟨x, computesP, ordinaryX⟩ := yields
  obtain ⟨y, computesQ, number⟩ := whole
  refine ⟨_, .binary .raised computesP computesQ, fun e returned => ?_⟩
  obtain ⟨a, first, returned⟩ := Outcome.bind_ok returned
  obtain ⟨b, second, returned⟩ := Outcome.bind_ok returned
  obtain ⟨v, rfl, integral⟩ := number b second
  exact (ordinaryX a first).pow integral returned

def IsWhole (text : String) : Prop := ∀ v, Rational.ofText text = .ok v → v.den = 1

/-- The tokens of a whole number that may be negated or in parentheses. -/
inductive IsExponent : List Token → Prop
  | number {text : String} (position : Nat) : IsWhole text → IsExponent [.number text position]
  | negative {tokens : List Token} (position : Nat) : IsExponent tokens →
      IsExponent (.operator "-" position :: tokens)
  | group {tokens : List Token} (position : Nat) : IsExponent tokens →
      IsExponent [.group "(" position tokens]

/-- No power sign comes first. -/
def Unraised (tokens : List Token) : Prop := ∀ position, tokens.head? ≠ some (.operator "^" position)

/-- Tokens of arithmetic: numbers, plain names, parentheses, the signs of addition, subtraction,
multiplication and division, and power signs, each with a whole number behind it. -/
inductive IsArithmetic : List Token → Prop
  | nil : IsArithmetic []
  | number {rest : List Token} (text : String) (position : Nat) : IsArithmetic rest →
      IsArithmetic (.number text position :: rest)
  | name {rest : List Token} {text : String} (position : Nat) : PlainName text → IsArithmetic rest →
      IsArithmetic (.name text position :: rest)
  | sign {rest : List Token} {sign : Sign} (position : Nat) : sign ≠ .raised → IsArithmetic rest →
      IsArithmetic (.operator (String.singleton sign.char) position :: rest)
  | power {exponent rest : List Token} (position : Nat) : IsExponent exponent → Unraised rest →
      IsArithmetic rest → IsArithmetic (.operator "^" position :: (exponent ++ rest))
  | group {inside rest : List Token} (position : Nat) : IsArithmetic inside → IsArithmetic rest →
      IsArithmetic (.group "(" position inside :: rest)

theorem IsExponent.isComma {tokens : List Token} (isExponent : IsExponent tokens) :
    ∀ t ∈ tokens, t.isComma = false := by
  induction isExponent with
  | number | group => simp [Token.isComma]
  | negative _ _ ih => simpa [Token.isComma] using ih

theorem IsArithmetic.isComma {tokens : List Token} (arithmetic : IsArithmetic tokens) :
    ∀ t ∈ tokens, t.isComma = false := by
  induction arithmetic with
  | nil => simp
  | number _ _ _ ih | name _ _ _ ih | sign _ _ _ ih => simpa [Token.isComma] using ih
  | group _ _ _ _ ih => simpa [Token.isComma] using ih
  | power _ exponent _ _ ih =>
    simp only [List.mem_cons, List.mem_append]
    rintro t (rfl | inside | later)
    · rfl
    · exact exponent.isComma t inside
    · exact ih t later

theorem YieldsWhole.number {text : String} (whole : IsWhole text) : YieldsWhole [.number text] := by
  refine ⟨_, .number text, fun e returned => ?_⟩
  obtain ⟨v, read, same⟩ := Outcome.bind_ok returned
  cases same
  exact ⟨v, rfl, whole v read⟩

theorem YieldsWhole.negative (yields : YieldsWhole p) : YieldsWhole (p ++ [.operator negation]) := by
  obtain ⟨x, computes, number⟩ := yields
  refine ⟨_, .negative computes, fun e returned => ?_⟩
  obtain ⟨a, first, same⟩ := Outcome.bind_ok returned
  cases same
  obtain ⟨v, rfl, whole⟩ := number a first
  exact ⟨-v, rfl, by rw [Rat.neg_den, whole]⟩

/-- The program of a whole number that may be negated. -/
inductive IsWholeProgram : Program → Prop
  | number {text : String} : IsWhole text → IsWholeProgram [.number text]
  | negative {p : Program} : IsWholeProgram p → IsWholeProgram (p ++ [.operator negation])

/-- A program of numbers, plain names and the signs of arithmetic, all of whose exponents are whole. -/
inductive IsArithmeticProgram : Program → Prop
  | number (text : String) : IsArithmeticProgram [.number text]
  | name {name : String} (plain : PlainName name) (position : Nat) : IsArithmeticProgram [.name name position]
  | negative {p : Program} : IsArithmeticProgram p → IsArithmeticProgram (p ++ [.operator negation])
  | positive {p : Program} : IsArithmeticProgram p → IsArithmeticProgram (p ++ [.operator affirmation])
  | binary {sign : Sign} {p q : Program} : IsArithmeticProgram p → IsArithmeticProgram q → sign ≠ .raised →
      IsArithmeticProgram (p ++ q ++ [.operator sign.operator])
  | power {p q : Program} : IsArithmeticProgram p → IsWholeProgram q →
      IsArithmeticProgram (p ++ q ++ [.operator Sign.raised.operator])

theorem IsWholeProgram.yields (isWhole : IsWholeProgram p) : YieldsWhole p := by
  induction isWhole with
  | number whole => exact .number whole
  | negative _ ih => exact ih.negative

theorem IsArithmeticProgram.yields (arithmetic : IsArithmeticProgram p) : Yields p := by
  induction arithmetic with
  | number text => exact .number text
  | name plain position => exact .name plain position
  | negative _ ih => exact ih.negative
  | positive _ ih => exact ih.positive
  | binary _ _ other ihP ihQ => exact ihP.binary ihQ other
  | power _ whole ih => exact ih.power whole.yields

/-- Tokens behind which an operand that binds so tightly ends. -/
def Halts (least : Int) (rest : List Token) : Prop :=
  (∀ n program, Session.initial.grammar.climb (n + 1) least program rest = .ok (program, rest)) ∧
    ∀ program, Session.initial.grammar.takePostfix program rest = (program, rest)

theorem halts_nil (least : Int) : Halts least [] := ⟨fun _ _ => rfl, fun _ => rfl⟩

theorem IsArithmetic.takePostfix {rest : List Token} (arithmetic : IsArithmetic rest) (program : Program) :
    Session.initial.grammar.takePostfix program rest = (program, rest) := by
  cases arithmetic with
  | @sign rest sign position => rw [Grammar.takePostfix, operator?_after rfl]
  | power position =>
    have none : Session.initial.grammar.operator? "^" .after = none := operator?_after rfl .raised
    rw [Grammar.takePostfix, none]
  | _ => rfl

theorem required_times : Session.initial.grammar.required "*" = .ok Sign.times.operator := by
  have times : Session.initial.grammar.operator? "*" .between = some Sign.times.operator :=
    operator?_sign rfl .times
  rw [Grammar.required, times]

/-- Only a power sign binds more tightly than a sign in front. -/
theorem IsArithmetic.halts {rest : List Token} (arithmetic : IsArithmetic rest) (unraised : Unraised rest)
    {least : Int} (tight : 5 ≤ least) : Halts least rest := by
  refine ⟨fun n program => ?_, arithmetic.takePostfix⟩
  have loose : Sign.times.operator.precedence < least := lt_of_lt_of_le (by decide) tight
  cases arithmetic with
  | nil => rfl
  | number | name | group =>
    simp only [Grammar.climb, required_times]
    exact if_pos loose
  | @sign rest sign position other =>
    have looser : sign.operator.precedence < least := by
      refine lt_of_lt_of_le ?_ tight
      cases sign with
      | raised => exact absurd rfl other
      | _ => decide
    have found : Session.initial.grammar.operator? (String.singleton sign.char) .between =
        some sign.operator := operator?_sign rfl sign
    simp only [Grammar.climb, found, if_pos looser]
    rfl
  | power position => exact absurd rfl (unraised position)

theorem primary_group {grammar : Grammar} {n : Nat} {rest left : List Token} {program : Program}
    {inside : List Token} {position : Nat} (plain : ∀ t ∈ inside, t.isComma = false)
    (returned : grammar.primary n (.group "(" position inside) rest = .ok (program, left)) :
    ∃ m, n = m + 1 ∧ grammar.complete m inside = .ok program ∧ left = rest := by
  cases n with
  | zero => cases returned
  | succ m =>
    by_cases empty : inside = []
    · rw [empty] at returned
      cases returned
    · simp only [Grammar.primary, arguments_single plain empty] at returned
      change (grammar.complete m inside >>= fun inner => .ok (inner, rest)) = _ at returned
      obtain ⟨inner, read, returned⟩ := Outcome.bind_ok returned
      cases returned
      exact ⟨m, rfl, read, rfl⟩

/-- An exponent is read as a whole number, up to where it ends. -/
theorem IsExponent.expression {exponent : List Token} (isExponent : IsExponent exponent) {n : Nat}
    {least : Int} {rest left : List Token} {program : Program} (halts : Halts least rest)
    (inner : Halts 5 rest)
    (returned : Session.initial.grammar.expression n least (exponent ++ rest) = .ok (program, left)) :
    IsWholeProgram program ∧ left = rest := by
  induction isExponent generalizing n least rest left program with
  | @number text position whole =>
    obtain ⟨m, operand, behind, read, rfl, climbed⟩ := expression_ok returned
    obtain ⟨k, first, after, rfl, primary, postfixed⟩ := operand_primary rfl read
    have taken : (first, after) = ([.number text], rest) := by
      cases k with
      | zero => cases primary
      | succ => exact (Except.ok.inj primary).symm
    obtain ⟨rfl, rfl⟩ := Prod.mk.inj taken
    rw [halts.2] at postfixed
    obtain ⟨rfl, rfl⟩ := Prod.mk.inj postfixed
    rw [halts.1] at climbed
    obtain ⟨rfl, rfl⟩ := Prod.mk.inj (Except.ok.inj climbed)
    exact ⟨.number whole, rfl⟩
  | @negative tokens position _ ih =>
    obtain ⟨m, operand, behind, read, rfl, climbed⟩ := expression_ok returned
    obtain ⟨k, op, first, rfl, found, expression, rfl⟩ := operand_operator read
    have minus : Session.initial.grammar.operator? "-" .before = some negation := operator?_minus rfl
    obtain rfl : negation = op := Option.some.inj (minus.symm.trans found)
    obtain ⟨whole, rfl⟩ := ih inner inner expression
    rw [halts.1] at climbed
    obtain ⟨rfl, rfl⟩ := Prod.mk.inj (Except.ok.inj climbed)
    exact ⟨whole.negative, rfl⟩
  | @group tokens position inside ih =>
    obtain ⟨m, operand, behind, read, rfl, climbed⟩ := expression_ok returned
    obtain ⟨k, first, after, rfl, primary, postfixed⟩ := operand_primary rfl read
    obtain ⟨j, rfl, complete, rfl⟩ := primary_group inside.isComma primary
    obtain ⟨i, rfl, expression⟩ := complete_ok complete
    rw [← List.append_nil tokens] at expression
    obtain ⟨whole, _⟩ := ih (halts_nil 0) (halts_nil 5) expression
    rw [halts.2] at postfixed
    obtain ⟨rfl, rfl⟩ := Prod.mk.inj postfixed
    rw [halts.1] at climbed
    obtain ⟨rfl, rfl⟩ := Prod.mk.inj (Except.ok.inj climbed)
    exact ⟨whole, rfl⟩

/-- What is kept of arithmetic tokens by so much work on reading. -/
structure ReadsArithmetic (n : Nat) : Prop where
  expression : ∀ {least tokens program rest}, IsArithmetic tokens →
    Session.initial.grammar.expression n least tokens = .ok (program, rest) →
      IsArithmeticProgram program ∧ IsArithmetic rest
  climb : ∀ {least first tokens program rest}, IsArithmeticProgram first → IsArithmetic tokens →
    Session.initial.grammar.climb n least first tokens = .ok (program, rest) →
      IsArithmeticProgram program ∧ IsArithmetic rest
  complete : ∀ {tokens program}, IsArithmetic tokens →
    Session.initial.grammar.complete n tokens = .ok program → IsArithmeticProgram program

namespace ReadsArithmetic

variable {n : Nat}

/-- An operand of arithmetic, with less work inside. -/
theorem operand (less : ∀ m < n, ReadsArithmetic m) {tokens rest : List Token} {program : Program}
    (arithmetic : IsArithmetic tokens)
    (returned : Session.initial.grammar.operand n tokens = .ok (program, rest)) :
    IsArithmeticProgram program ∧ IsArithmetic rest := by
  cases arithmetic with
  | nil =>
    cases n with
    | zero => cases returned
    | succ => cases returned
  | @number behind text position later =>
    obtain ⟨m, first, after, rfl, primary, postfixed⟩ := operand_primary rfl returned
    have taken : (first, after) = ([.number text], behind) := by
      cases m with
      | zero => cases primary
      | succ => exact (Except.ok.inj primary).symm
    obtain ⟨rfl, rfl⟩ := Prod.mk.inj taken
    rw [later.takePostfix] at postfixed
    obtain ⟨rfl, rfl⟩ := Prod.mk.inj postfixed
    exact ⟨.number text, later⟩
  | @name behind text position plain later =>
    obtain ⟨m, first, after, rfl, primary, postfixed⟩ := operand_primary rfl returned
    have taken : (first, after) = ([.name text position], behind) := by
      cases m with
      | zero => cases primary
      | succ =>
        simp only [Grammar.primary, plain.notFunction] at primary
        exact (Except.ok.inj primary).symm
    obtain ⟨rfl, rfl⟩ := Prod.mk.inj taken
    rw [later.takePostfix] at postfixed
    obtain ⟨rfl, rfl⟩ := Prod.mk.inj postfixed
    exact ⟨.name plain position, later⟩
  | @sign behind sign position other later =>
    obtain ⟨m, op, inner, rfl, found, expression, rfl⟩ := operand_operator returned
    obtain ⟨yields, behind⟩ := (less m (Nat.lt_succ_self m)).expression later expression
    have before : op = negation ∨ op = affirmation := by
      cases sign with
      | plus => exact .inr (Option.some.inj found).symm
      | minus => exact .inl (Option.some.inj found).symm
      | times | divided => cases found
      | raised => exact absurd rfl other
    rcases before with rfl | rfl
    · exact ⟨yields.negative, behind⟩
    · exact ⟨yields.positive, behind⟩
  | power position =>
    obtain ⟨m, op, inner, rfl, found, _⟩ := operand_operator returned
    cases found
  | @group inside behind position within later =>
    obtain ⟨m, first, after, rfl, primary, postfixed⟩ := operand_primary rfl returned
    obtain ⟨k, rfl, complete, rfl⟩ := primary_group within.isComma primary
    rw [later.takePostfix] at postfixed
    obtain ⟨rfl, rfl⟩ := Prod.mk.inj postfixed
    exact ⟨(less k (by omega)).complete within complete, later⟩

theorem climb_succ (less : ReadsArithmetic n) {least : Int} {first program : Program}
    {tokens rest : List Token} (yields : IsArithmeticProgram first) (arithmetic : IsArithmetic tokens)
    (returned : Session.initial.grammar.climb (n + 1) least first tokens = .ok (program, rest)) :
    IsArithmeticProgram program ∧ IsArithmetic rest := by
  -- A sign, written or left out, with its right operand, and on behind it.
  have further {sign : Sign} (other : sign ≠ .raised) {next : Int} {behind : List Token}
      (later : IsArithmetic behind)
      (returned : (if sign.operator.precedence < least then Except.ok (first, tokens) else do
        let right ← Session.initial.grammar.expression n next behind
        Session.initial.grammar.climb n least (first ++ right.1 ++ [.operator sign.operator]) right.2) =
          .ok (program, rest)) : IsArithmeticProgram program ∧ IsArithmetic rest := by
    split at returned
    · cases returned
      exact ⟨yields, arithmetic⟩
    · obtain ⟨⟨right, after⟩, expression, returned⟩ := Outcome.bind_ok returned
      obtain ⟨yieldsRight, arithmeticAfter⟩ := less.expression later expression
      exact less.climb (yields.binary yieldsRight other) arithmeticAfter returned
  have times : Sign.times ≠ .raised := fun same => by cases same
  cases id arithmetic with
  | nil =>
    cases returned
    exact ⟨yields, .nil⟩
  | number text position later =>
    simp only [Grammar.climb, required_times] at returned
    exact further times arithmetic returned
  | name position plain later =>
    simp only [Grammar.climb, required_times] at returned
    exact further times arithmetic returned
  | group position within later =>
    simp only [Grammar.climb, required_times] at returned
    exact further times arithmetic returned
  | @sign behind sign position other later =>
    have found : Session.initial.grammar.operator? (String.singleton sign.char) .between =
        some sign.operator := operator?_sign rfl sign
    simp only [Grammar.climb, found] at returned
    exact further other later returned
  | @power exponent behind position isExponent unraised later =>
    have found : Session.initial.grammar.operator? "^" .between = some Sign.raised.operator :=
      operator?_sign rfl .raised
    simp only [Grammar.climb, found] at returned
    split at returned
    · cases returned
      exact ⟨yields, arithmetic⟩
    · obtain ⟨⟨right, after⟩, expression, climbed⟩ := Outcome.bind_ok returned
      have halts {least : Int} (tight : 5 ≤ least) := later.halts unraised tight
      obtain ⟨whole, rfl⟩ := isExponent.expression (halts (by decide)) (halts le_rfl) expression
      exact less.climb (yields.power whole) later climbed

end ReadsArithmetic

/-- Whatever the work limit, arithmetic tokens are read as programs of arithmetic. -/
theorem readsArithmetic (n : Nat) : ReadsArithmetic n := by
  induction n using Nat.strongRecOn with
  | ind n less =>
    cases n with
    | zero =>
      constructor
      · intro _ _ _ _ _ returned
        cases returned
      · intro _ _ _ _ _ _ _ returned
        cases returned
      · intro _ _ _ returned
        cases returned
    | succ n =>
      have kept := less n (Nat.lt_succ_self n)
      refine ⟨fun arithmetic returned => ?_, kept.climb_succ, fun arithmetic returned => ?_⟩
      · obtain ⟨m, first, behind, operand, same, climbed⟩ := expression_ok returned
        obtain rfl : n = m := Nat.succ.inj same
        obtain ⟨yields, later⟩ := ReadsArithmetic.operand (fun k small => less k (by omega)) arithmetic operand
        exact kept.climb yields later climbed
      · obtain ⟨m, same, expression⟩ := complete_ok returned
        obtain rfl : n = m := Nat.succ.inj same
        exact (kept.expression arithmetic expression).1

/-- Arithmetic tokens are compiled to a program of arithmetic. -/
theorem IsArithmetic.isArithmeticProgram {tokens : List Token} {program : Program} (arithmetic : IsArithmetic tokens)
    (returned : Session.initial.grammar.program tokens = .ok program) : IsArithmeticProgram program :=
  (readsArithmetic _).complete arithmetic returned

end Reader

end ExactAlgebra
