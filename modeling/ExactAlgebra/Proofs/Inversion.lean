import ExactAlgebra.Proofs.Computation
import ExactAlgebra.Reader.Program
import Mathlib

/-! Readings that returned, taken apart. Each reading function that came to a program did so in one of
a few ways, with less work left for what it read inside. -/
namespace ExactAlgebra.Reader

variable {grammar : Grammar} {n : Nat} {least : Int} {tokens rest left : List Token}
  {program first : Program}

theorem expression_ok (returned : grammar.expression n least tokens = .ok (program, left)) :
    ∃ m operand behind, grammar.operand m tokens = .ok (operand, behind) ∧
      n = m + 1 ∧ grammar.climb m least operand behind = .ok (program, left) := by
  cases n with
  | zero => cases returned
  | succ m =>
    rw [Grammar.expression] at returned
    obtain ⟨⟨operand, behind⟩, found, returned⟩ := Outcome.bind_ok returned
    exact ⟨m, operand, behind, found, rfl, returned⟩

/-- The programs that reading comes to behind an operand with the program `first`: that one, or what
follows when an operator, which may be left out, has taken its right operand. -/
inductive IsClimb (grammar : Grammar) (n : Nat) (least : Int) (first : Program) (left : List Token) :
    Program → Prop
  | stop : IsClimb grammar n least first left first
  | goOn {symbol : String} {op : Operator} {next : Int} {behind after : List Token}
      {right program : Program} : grammar.operator? symbol .between = some op →
      grammar.expression n next behind = .ok (right, after) →
      grammar.climb n least (first ++ right ++ [.operator op]) after = .ok (program, left) →
      IsClimb grammar n least first left program

theorem climb_ok (returned : grammar.climb n least first tokens = .ok (program, left)) :
    ∃ m, n = m + 1 ∧ IsClimb grammar m least first left program := by
  cases n with
  | zero => cases returned
  | succ m =>
    refine ⟨m, rfl, ?_⟩
    have further {symbol : String} {op : Operator} {next : Int} {stop behind : List Token}
        (found : grammar.operator? symbol .between = some op)
        (returned : (if op.precedence < least then Except.ok (first, stop) else do
          let right ← grammar.expression m next behind
          grammar.climb m least (first ++ right.1 ++ [Instruction.operator op]) right.2) =
            .ok (program, left)) : IsClimb grammar m least first left program := by
      split at returned
      · cases returned
        exact .stop
      · obtain ⟨⟨right, after⟩, read, returned⟩ := Outcome.bind_ok returned
        exact .goOn found read returned
    have juxtaposed {token : Token} {rest : List Token}
        (returned : (do
          let times ← grammar.required "*"
          if times.precedence < least then return (first, token :: rest)
          else
            let right ← grammar.expression m (times.precedence + 1) (token :: rest)
            grammar.climb m least (first ++ right.1 ++ [Instruction.operator times]) right.2) =
              .ok (program, left)) : IsClimb grammar m least first left program := by
      obtain ⟨times, required, returned⟩ := Outcome.bind_ok returned
      unfold Grammar.required at required
      split at required
      next op found =>
        cases required
        exact further found returned
      next => cases required
    cases tokens with
    | nil =>
      cases returned
      exact .stop
    | cons token rest =>
      cases token with
      | operator symbol position =>
        simp only [Grammar.climb] at returned
        split at returned
        next =>
          cases returned
          exact .stop
        next op found => exact further found returned
      | comma =>
        cases returned
        exact .stop
      | number | name | group =>
        simp only [Grammar.climb] at returned
        exact juxtaposed returned

/-- An operator comes first only if it can stand in front of an operand. -/
theorem operand_operator {symbol : String} {position : Nat}
    (returned : grammar.operand n (.operator symbol position :: rest) = .ok (program, left)) :
    ∃ m op inner, n = m + 1 ∧ grammar.operator? symbol .before = some op ∧
      grammar.expression m op.precedence rest = .ok (inner, left) ∧
      program = inner ++ [.operator op] := by
  cases n with
  | zero => cases returned
  | succ m =>
    rw [Grammar.operand] at returned
    split at returned
    next => cases returned
    next op found =>
      obtain ⟨⟨inner, behind⟩, read, returned⟩ := Outcome.bind_ok returned
      cases returned
      exact ⟨m, op, inner, rfl, found, read, rfl⟩

theorem operand_primary {token : Token} (starts : token.startsOperand = true)
    (returned : grammar.operand n (token :: rest) = .ok (program, left)) :
    ∃ m inner behind, n = m + 1 ∧ grammar.primary m token rest = .ok (inner, behind) ∧
      grammar.takePostfix inner behind = (program, left) := by
  cases n with
  | zero => cases returned
  | succ m =>
    rw [Grammar.operand] at returned
    · obtain ⟨⟨inner, behind⟩, read, returned⟩ := Outcome.bind_ok returned
      exact ⟨m, inner, behind, rfl, read, Except.ok.inj returned⟩
    · rintro symbol position rfl
      cases starts

theorem complete_ok (returned : grammar.complete n tokens = .ok program) :
    ∃ m, n = m + 1 ∧ grammar.expression m 0 tokens = .ok (program, []) := by
  cases n with
  | zero => cases returned
  | succ m =>
    rw [Grammar.complete] at returned
    obtain ⟨_, returned⟩ := Outcome.passed returned
    obtain ⟨⟨inner, behind⟩, read, returned⟩ := Outcome.bind_ok returned
    cases behind with
    | nil =>
      cases returned
      exact ⟨m, rfl, read⟩
    | cons => cases returned

/-- The programs of numbers, names, calls and groups, with so much work for what is inside. -/
inductive IsPrimary (grammar : Grammar) (n : Nat) : Program → Prop
  | number (text : String) : IsPrimary grammar n [.number text]
  | name (text : String) (position : Nat) : IsPrimary grammar n [.name text position]
  | call {args : List (List Token)} {programs : List Program} (name : String) (position : Nat) :
      args.mapM (grammar.complete n) = .ok programs →
      IsPrimary grammar n (programs.flatten ++ [.call name args.length position])
  | application {least : Int} {tokens left : List Token} {inner : Program} (name : String)
      (position : Nat) : grammar.expression n least tokens = .ok (inner, left) →
      IsPrimary grammar n (inner ++ [.call name 1 position])
  | group {element : List Token} {program : Program} : grammar.complete n element = .ok program →
      IsPrimary grammar n program
  | vector {elements : List (List Token)} {programs : List Program} :
      elements.mapM (grammar.complete n) = .ok programs →
      IsPrimary grammar n (programs.flatten ++ [.vector elements.length])

theorem primary_ok {token : Token} (returned : grammar.primary n token rest = .ok (program, left)) :
    ∃ m, n = m + 1 ∧ IsPrimary grammar m program := by
  cases n with
  | zero => cases returned
  | succ m =>
    refine ⟨m, rfl, ?_⟩
    cases token with
    | number text =>
      cases returned
      exact .number text
    | name text position =>
      simp only [Grammar.primary] at returned
      split at returned
      · split at returned
        · split at returned
          · obtain ⟨args, _, returned⟩ := Outcome.bind_ok returned
            obtain ⟨programs, read, returned⟩ := Outcome.bind_ok returned
            cases returned
            exact .call text position read
          · cases returned
            exact .name text position
        · obtain ⟨power, _, returned⟩ := Outcome.bind_ok returned
          obtain ⟨⟨inner, behind⟩, read, returned⟩ := Outcome.bind_ok returned
          cases returned
          exact .application text position read
        · obtain ⟨power, _, returned⟩ := Outcome.bind_ok returned
          obtain ⟨⟨inner, behind⟩, read, returned⟩ := Outcome.bind_ok returned
          cases returned
          exact .application text position read
        · cases returned
          exact .name text position
      · cases returned
        exact .name text position
    | group bracket position children =>
      simp only [Grammar.primary] at returned
      obtain ⟨elements, _, returned⟩ := Outcome.bind_ok returned
      split at returned
      · split at returned
        · obtain ⟨inner, read, returned⟩ := Outcome.bind_ok returned
          cases returned
          exact .group read
        · cases returned
      · obtain ⟨programs, read, returned⟩ := Outcome.bind_ok returned
        cases returned
        exact .vector read
    | operator => cases returned
    | comma => cases returned

end ExactAlgebra.Reader
