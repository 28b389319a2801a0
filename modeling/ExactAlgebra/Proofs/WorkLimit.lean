import ExactAlgebra.Reader.Program
import Mathlib

/-! Reading has work enough. Whatever is read as an operand takes tokens away, and a group weighs more
than what it holds; so reading comes to a program or to a fault of the text before the work is used up
that its limit allows. -/
namespace ExactAlgebra.Reader
open Token (weightAll)

/-- The reading returned such a result, or it failed for another reason than a want of work. -/
def Suffices {α : Type} (post : α → Prop) : Except Fault α → Prop
  | .ok a => post a
  | .error fault => fault ≠ .unsupported

namespace Suffices

variable {α β : Type} {x : Except Fault α} {f : α → Except Fault β} {post : α → Prop}

theorem bind {last : β → Prop} (first : Suffices post x) (further : ∀ a, post a → Suffices last (f a)) :
    Suffices last (x >>= f) := by
  cases x with
  | error => exact first
  | ok a => exact further a first

theorem imp {weaker : α → Prop} (enough : Suffices post x) (implies : ∀ a, post a → weaker a) :
    Suffices weaker x := by
  cases x with
  | error => exact enough
  | ok a => exact implies a enough

theorem mapM {as : List α} {each : β → Prop} (every : ∀ a ∈ as, Suffices each (f a)) :
    Suffices (fun _ => True) (as.mapM f) := by
  induction as with
  | nil => exact trivial
  | cons a as ih =>
    obtain ⟨first, others⟩ := List.forall_mem_cons.mp every
    rw [List.mapM_cons]
    exact first.bind fun b _ => (ih others).bind fun bs _ => trivial

end Suffices

theorem Token.weight_pos (token : Token) : 0 < token.weight := by
  cases token <;> simp [Token.weight]

theorem weightAll_le_of_mem_splitCommas {tokens piece : List Token}
    (member : piece ∈ Grammar.splitCommas tokens) : weightAll piece ≤ weightAll tokens := by
  induction tokens generalizing piece with
  | nil =>
    obtain rfl := List.mem_singleton.mp member
    exact le_refl _
  | cons t rest ih =>
    rw [weightAll]
    rw [Grammar.splitCommas] at member
    split at member
    next =>
      obtain rfl := List.mem_singleton.mp member
      exact Nat.zero_le _
    next first pieces split =>
      have lighter : ∀ p ∈ first :: pieces, weightAll p ≤ weightAll rest :=
        fun p inside => ih (split ▸ inside)
      obtain ⟨head, tail⟩ := List.forall_mem_cons.mp lighter
      split at member
      · rcases List.mem_cons.mp member with rfl | inside
        · exact Nat.zero_le _
        · exact (lighter piece inside).trans (Nat.le_add_left _ _)
      · rcases List.mem_cons.mp member with rfl | inside
        · rw [weightAll]
          omega
        · exact (tail piece inside).trans (Nat.le_add_left _ _)

theorem arguments_suffices (tokens : List Token) :
    Suffices (∀ piece ∈ ·, weightAll piece ≤ weightAll tokens) (Grammar.arguments tokens) := by
  unfold Grammar.arguments
  split
  · exact fun piece member => (List.not_mem_nil member).elim
  dsimp only
  split
  · exact Fault.noConfusion
  · exact fun piece member => weightAll_le_of_mem_splitCommas member

variable {grammar : Grammar}

theorem weightAll_takePostfix (program : Program) (tokens : List Token) :
    weightAll (grammar.takePostfix program tokens).2 ≤ weightAll tokens := by
  induction tokens generalizing program with
  | nil => exact le_refl _
  | cons token rest ih =>
    cases token with
    | operator symbol position =>
      rw [Grammar.takePostfix]
      split
      · exact le_refl _
      dsimp only
      split
      · exact le_refl _
      · exact (ih _).trans (Nat.le_add_left _ _)
    | _ => exact le_refl _

/-- The operators that reading puts in by itself are there. -/
def Grammar.IsComplete (grammar : Grammar) : Prop :=
  ∀ symbol ∈ ["*", "^"], Suffices (fun _ => True) (grammar.required symbol)

/-- So much work suffices for tokens that weigh a fourth of it; and fewer tokens are left of them when
an operand was read. -/
structure HasWork (grammar : Grammar) (n : Nat) : Prop where
  expression : ∀ least tokens, 4 * weightAll tokens + 2 ≤ n →
    Suffices (weightAll ·.2 < weightAll tokens) (grammar.expression n least tokens)
  climb : ∀ least program tokens, 4 * weightAll tokens + 3 ≤ n →
    Suffices (weightAll ·.2 ≤ weightAll tokens) (grammar.climb n least program tokens)
  operand : ∀ tokens, 4 * weightAll tokens + 1 ≤ n →
    Suffices (weightAll ·.2 < weightAll tokens) (grammar.operand n tokens)
  primary : ∀ token rest, 4 * weightAll (token :: rest) ≤ n →
    Suffices (weightAll ·.2 ≤ weightAll rest) (grammar.primary n token rest)
  complete : ∀ tokens, 4 * weightAll tokens + 3 ≤ n →
    Suffices (fun _ => True) (grammar.complete n tokens)

namespace HasWork

variable {n : Nat}

theorem expression_succ (has : HasWork grammar n) {least : Int} {tokens : List Token}
    (enough : 4 * weightAll tokens + 2 ≤ n + 1) :
    Suffices (weightAll ·.2 < weightAll tokens) (grammar.expression (n + 1) least tokens) := by
  rw [Grammar.expression]
  refine (has.operand tokens (by omega)).bind fun read lighter => ?_
  exact (has.climb least read.1 read.2 (by omega)).imp fun last le => le.trans_lt lighter

theorem climb_succ (complete : grammar.IsComplete) (has : HasWork grammar n) {least : Int}
    {program : Program} {tokens : List Token} (enough : 4 * weightAll tokens + 3 ≤ n + 1) :
    Suffices (weightAll ·.2 ≤ weightAll tokens) (grammar.climb (n + 1) least program tokens) := by
  have juxtaposed {token : Token} {rest : List Token} (weighs : 4 * weightAll (token :: rest) + 3 ≤ n + 1) :
      Suffices (weightAll ·.2 ≤ weightAll (token :: rest)) (do
        let times ← grammar.required "*"
        if times.precedence < least then return (program, token :: rest)
        else
          let right ← grammar.expression n (times.precedence + 1) (token :: rest)
          grammar.climb n least (program ++ right.1 ++ [.operator times]) right.2) := by
    refine (complete "*" (by simp)).bind fun times _ => ?_
    split
    · exact le_refl _
    refine (has.expression _ _ (by omega)).bind fun read lighter => ?_
    exact (has.climb _ _ _ (by omega)).imp fun last le => le.trans lighter.le
  cases tokens with
  | nil => exact le_refl _
  | cons token rest =>
    cases token with
    | operator symbol position =>
      simp only [weightAll, Token.weight] at enough
      simp only [Grammar.climb]
      split
      · exact le_refl _
      split
      · exact le_refl _
      refine (has.expression _ _ (by omega)).bind fun read lighter => ?_
      refine (has.climb _ _ _ (by omega)).imp fun last le => ?_
      exact (le.trans lighter.le).trans (Nat.le_add_left _ _)
    | comma => exact le_refl _
    | number | name | group =>
      simp only [Grammar.climb]
      exact juxtaposed enough

theorem operand_succ (has : HasWork grammar n) {tokens : List Token}
    (enough : 4 * weightAll tokens + 1 ≤ n + 1) :
    Suffices (weightAll ·.2 < weightAll tokens) (grammar.operand (n + 1) tokens) := by
  cases tokens with
  | nil => exact Fault.noConfusion
  | cons token rest =>
    have positive := token.weight_pos
    rw [weightAll] at enough ⊢
    have primary : Suffices (weightAll ·.2 < token.weight + weightAll rest) (do
        let read ← grammar.primary n token rest
        return grammar.takePostfix read.1 read.2) := by
      refine (has.primary token rest (by rw [weightAll]; omega)).bind fun read lighter => ?_
      have after : weightAll (grammar.takePostfix read.1 read.2).2 ≤ weightAll read.2 :=
        weightAll_takePostfix read.1 read.2
      exact after.trans_lt (lighter.trans_lt (Nat.lt_add_of_pos_left positive))
    cases token with
    | operator symbol position =>
      rw [Grammar.operand]
      split
      · exact Fault.noConfusion
      refine (has.expression _ _ (by omega)).bind fun read lighter => ?_
      change weightAll read.2 < _
      omega
    | number | name | group | comma => exact primary

/-- The pieces between the commas of a group are read with what work is left. -/
theorem pieces (has : HasWork grammar n) {pieces : List (List Token)} {weight : Nat}
    (lighter : ∀ piece ∈ pieces, weightAll piece ≤ weight) (enough : 4 * weight + 3 ≤ n) :
    Suffices (fun _ => True) (pieces.mapM (grammar.complete n)) := by
  refine Suffices.mapM fun piece member => has.complete piece ?_
  have small := lighter piece member
  omega

theorem primary_succ (complete : grammar.IsComplete) (has : HasWork grammar n) {token : Token}
    {rest : List Token} (enough : 4 * weightAll (token :: rest) ≤ n + 1) :
    Suffices (weightAll ·.2 ≤ weightAll rest) (grammar.primary (n + 1) token rest) := by
  have positive := token.weight_pos
  rw [weightAll] at enough
  cases token with
  | number text => exact le_refl _
  | name text position =>
    have bare {inner : List Token} (weighs : 4 * weightAll inner + 2 ≤ n) :
        Suffices (weightAll ·.2 ≤ weightAll inner) (do
          let power ← grammar.required "^"
          let read ← grammar.expression n power.precedence inner
          return (read.1 ++ [.call text 1 position], read.2)) := by
      refine (complete "^" (by simp)).bind fun power _ => ?_
      exact (has.expression _ _ weighs).bind fun read lighter => lighter.le
    simp only [Grammar.primary]
    split
    · split
      · next bracket start children behind =>
        rw [weightAll, Token.weight] at enough
        split
        · refine (arguments_suffices children).bind fun args lighter => ?_
          refine (has.pieces lighter (by omega)).bind fun programs _ => ?_
          exact Nat.le_add_left _ _
        · exact le_refl _
      · exact bare (by omega)
      · exact bare (by omega)
      · exact le_refl _
    · exact le_refl _
  | group bracket position children =>
    rw [Token.weight] at enough
    simp only [Grammar.primary]
    refine (arguments_suffices children).bind fun elements lighter => ?_
    split
    · split
      · next element =>
        have small := lighter element List.mem_cons_self
        exact (has.complete element (by omega)).bind fun program _ => le_refl _
      · exact Fault.noConfusion
    · exact (has.pieces lighter (by omega)).bind fun programs _ => le_refl _
  | operator | comma => exact Fault.noConfusion

theorem complete_succ (has : HasWork grammar n) {tokens : List Token}
    (enough : 4 * weightAll tokens + 3 ≤ n + 1) :
    Suffices (fun _ => True) (grammar.complete (n + 1) tokens) := by
  rw [Grammar.complete]
  split
  · exact Fault.noConfusion
  refine (has.expression 0 tokens (by omega)).bind fun read _ => ?_
  dsimp only
  split
  · exact trivial
  · exact Fault.noConfusion

end HasWork

theorem hasWork (complete : grammar.IsComplete) (n : Nat) : HasWork grammar n := by
  induction n with
  | zero =>
    refine ⟨fun _ _ enough => ?_, fun _ _ _ enough => ?_, fun _ enough => ?_, fun token rest enough => ?_,
      fun _ enough => ?_⟩
    case refine_4 =>
      have positive := token.weight_pos
      rw [weightAll] at enough
      omega
    all_goals omega
  | succ n has =>
    exact ⟨fun _ _ => has.expression_succ, fun _ _ _ => has.climb_succ complete, fun _ => has.operand_succ,
      fun _ _ => has.primary_succ complete, fun _ => has.complete_succ⟩

/-- Tokens are read to a program, or they are refused for what they are. -/
theorem program_ne_unsupported (usual : grammar.operators = Operator.initial) (tokens : List Token) :
    grammar.program tokens ≠ .error .unsupported := by
  have complete : grammar.IsComplete := by
    intro symbol member
    unfold Grammar.required Grammar.operator?
    rw [usual]
    simp only [List.mem_cons, List.not_mem_nil, or_false] at member
    rcases member with rfl | rfl <;> exact trivial
  have enough : 4 * weightAll tokens + 3 ≤ Grammar.workLimit tokens := by
    unfold Grammar.workLimit
    omega
  intro failed
  have read := (hasWork complete _).complete tokens enough
  rw [Grammar.program] at failed
  rw [failed] at read
  exact read rfl

end ExactAlgebra.Reader
