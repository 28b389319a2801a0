import ExactAlgebra.Proofs.Precedence
import ExactAlgebra.Proofs.WorkLimit
import Mathlib

/-! Juxtaposition is multiplication. Between a number or a group and the operand that stands right behind it, a
multiplication sign may be written or left out; the postfix program is the same, but for the positions it
records. -/
namespace ExactAlgebra.Reader

/-- What stands right behind this token may be a factor. A name may be that of a function. -/
def Token.endsFactor : Token → Bool
  | .number .. | .group .. => true
  | _ => false

mutual

inductive Alike : Token → Token → Prop
  | number {text : String} {p q : ℕ} : Alike (.number text p) (.number text q)
  | name {text : String} {p q : ℕ} : Alike (.name text p) (.name text q)
  | operator {symbol : String} {p q : ℕ} : Alike (.operator symbol p) (.operator symbol q)
  | comma {p q : ℕ} : Alike (.comma p) (.comma q)
  | group {bracket : String} {p q : ℕ} {children children' : List Token}
    (inside : Spelled false children children') : Alike (.group bracket p children) (.group bracket q children')

/-- The same tokens, but for multiplication signs that the second list has between a factor and an operand.
`after` says that a factor stands right before the lists. -/
inductive Spelled : Bool → List Token → List Token → Prop
  | nil {after : Bool} : Spelled after [] []
  | cons {after : Bool} {t u : Token} {ts us : List Token} (same : Alike t u)
    (later : Spelled t.endsFactor ts us) : Spelled after (t :: ts) (u :: us)
  | sign {position : ℕ} {t u : Token} {ts us : List Token} (operand : t.startsOperand = true) (same : Alike t u)
    (later : Spelled t.endsFactor ts us) : Spelled true (t :: ts) (.operator "*" position :: u :: us)

end

theorem Alike.startsOperand_eq {t u : Token} (same : Alike t u) : t.startsOperand = u.startsOperand := by
  cases same <;> rfl

theorem Alike.isComma_eq {t u : Token} (same : Alike t u) : t.isComma = u.isComma := by
  cases same <;> rfl

namespace Spelled

variable {after : Bool} {tokens signed : List Token}

/-- Where signs may be left out of the beginning, they need not. -/
theorem mono {before : Bool} (le : before ≤ after) (spelled : Spelled before tokens signed) :
    Spelled after tokens signed := by
  cases spelled with
  | nil => exact .nil
  | cons same later => exact .cons same later
  | sign operand same later =>
    obtain rfl : after = true := le rfl
    exact .sign operand same later

theorem behind (spelled : Spelled after tokens signed) : Spelled true tokens signed := spelled.mono (Bool.le_true after)

theorem isEmpty_eq (spelled : Spelled after tokens signed) : tokens.isEmpty = signed.isEmpty := by
  cases spelled <;> rfl

/-- Where no factor stands before the lists, an operand begins both or none. -/
theorem head?_eq (spelled : Spelled false tokens signed) :
    tokens.head?.map Token.startsOperand = signed.head?.map Token.startsOperand := by
  cases spelled with
  | nil => rfl
  | cons same later => exact congrArg some same.startsOperand_eq

/-- The pieces between commas are spelled alike; only the first has before it what stands before the whole. -/
theorem splitCommas (spelled : Spelled after tokens signed) : ∃ piece piece' pieces pieces',
    Grammar.splitCommas tokens = piece :: pieces ∧ Grammar.splitCommas signed = piece' :: pieces' ∧
      Spelled after piece piece' ∧ List.Forall₂ (Spelled false) pieces pieces' := by
  induction tokens generalizing after signed with
  | nil =>
    cases spelled
    exact ⟨[], [], [], [], rfl, rfl, .nil, .nil⟩
  | cons t ts ih =>
    cases spelled with
    | cons same later =>
      obtain ⟨piece, piece', pieces, pieces', split, split', first, others⟩ := ih later
      rw [Grammar.splitCommas, Grammar.splitCommas, split, split', ← same.isComma_eq]
      cases comma : t.isComma with
      | false => exact ⟨_, _, pieces, pieces', rfl, rfl, .cons same first, others⟩
      | true =>
        obtain ⟨position, rfl⟩ : ∃ position, t = .comma position := by
          cases t with
          | comma position => exact ⟨position, rfl⟩
          | number | name | operator | group => cases comma
        exact ⟨[], [], piece :: pieces, piece' :: pieces', rfl, rfl, .nil, .cons first others⟩
    | sign operand same later =>
      obtain ⟨piece, piece', pieces, pieces', split, split', first, others⟩ := ih later
      have inside : t.isComma = false := by
        cases t with
        | comma => cases operand
        | number | name | operator | group => rfl
      rw [Grammar.splitCommas, Grammar.splitCommas, Grammar.splitCommas, split, split', ← same.isComma_eq, inside]
      exact ⟨_, _, pieces, pieces', rfl, rfl, .sign operand same first, others⟩

end Spelled

def Instruction.unplaced : Instruction → Instruction
  | name text _ => name text 0
  | call text count _ => call text count 0
  | other => other

def Program.unplaced (program : Program) : Program := program.map Instruction.unplaced

@[simp] theorem Program.unplaced_append (p q : Program) :
    Program.unplaced (p ++ q) = Program.unplaced p ++ Program.unplaced q := List.map_append

theorem Program.unplaced_flatten {programs programs' : List Program}
    (same : List.Forall₂ (fun p q : Program => p.unplaced = q.unplaced) programs programs') :
    Program.unplaced programs.flatten = Program.unplaced programs'.flatten := by
  induction same with
  | nil => rfl
  | cons first _ ih => rw [List.flatten_cons, List.flatten_cons, unplaced_append, unplaced_append, first, ih]

/-- Both readings return, with related results, or both fail; one that lacks work may end in any way. -/
def SameOutcome {α β : Type} (related : α → β → Prop) : Except Fault α → Except Fault β → Prop
  | .ok a, .ok b => related a b
  | .ok _, .error fault | .error fault, .ok _ => fault = .unsupported
  | .error _, .error _ => True

namespace SameOutcome

variable {α β α' β' : Type} {related : α → β → Prop} {last : α' → β' → Prop} {x : Except Fault α}
  {y : Except Fault β} {f : α → Except Fault α'} {g : β → Except Fault β'}

theorem of_left_lacks : SameOutcome related (.error .unsupported) y := by
  cases y with
  | ok => rfl
  | error => trivial

theorem of_right_lacks : SameOutcome related x (.error .unsupported) := by
  cases x with
  | ok => rfl
  | error => trivial

theorem bind (first : SameOutcome related x y) (further : ∀ a b, related a b → SameOutcome last (f a) (g b)) :
    SameOutcome last (x >>= f) (y >>= g) := by
  cases x with
  | ok a =>
    cases y with
    | ok b => exact further a b first
    | error fault =>
      obtain rfl : fault = .unsupported := first
      exact of_right_lacks
  | error fault =>
    cases y with
    | ok b =>
      obtain rfl : fault = .unsupported := first
      exact of_left_lacks
    | error => trivial

theorem mapM {as : List α} {bs : List β} (each : List.Forall₂ (fun a b => SameOutcome last (f a) (g b)) as bs) :
    SameOutcome (List.Forall₂ last) (as.mapM f) (bs.mapM g) := by
  induction each with
  | nil => exact List.Forall₂.nil
  | cons first _ ih =>
    rw [List.mapM_cons, List.mapM_cons]
    refine first.bind fun a b head => ?_
    exact ih.bind fun as bs tail => List.Forall₂.cons head tail

end SameOutcome

theorem Spelled.any_isEmpty_eq {pieces pieces' : List (List Token)}
    (spelled : List.Forall₂ (Spelled false) pieces pieces') :
    pieces.any (·.isEmpty) = pieces'.any (·.isEmpty) := by
  induction spelled with
  | nil => rfl
  | cons first _ ih => rw [List.any_cons, List.any_cons, first.isEmpty_eq, ih]

theorem Spelled.arguments {tokens signed : List Token} (spelled : Spelled false tokens signed) :
    SameOutcome (List.Forall₂ (Spelled false)) (Grammar.arguments tokens) (Grammar.arguments signed) := by
  obtain ⟨piece, piece', pieces, pieces', split, split', first, others⟩ := spelled.splitCommas
  have pieceByPiece : List.Forall₂ (Spelled false) (piece :: pieces) (piece' :: pieces') := .cons first others
  unfold Grammar.arguments
  rw [← spelled.isEmpty_eq, split, split']
  dsimp only
  rw [← any_isEmpty_eq pieceByPiece]
  split
  · exact List.Forall₂.nil
  split
  · trivial
  · exact pieceByPiece

/-- What was read is the same program, and the tokens left over are spelled alike. -/
structure SameReading (read read' : Program × List Token) : Prop where
  program : read.1.unplaced = read'.1.unplaced
  rest : Spelled true read.2 read'.2

section Reading

variable {grammar : Grammar} {p q : Program} {after : Bool} {tokens signed : List Token}

theorem operator?_times (usual : grammar.operators = Operator.initial) :
    grammar.operator? "*" .between = some Sign.times.operator := operator?_sign usual .times

theorem operator?_times_after (usual : grammar.operators = Operator.initial) :
    grammar.operator? "*" .after = none := operator?_after usual .times

/-- Behind a finished operand, an operand is a factor. -/
theorem climb_operand (usual : grammar.operators = Operator.initial) {n : ℕ} {least : Int} {t : Token}
    {ts : List Token} (operand : t.startsOperand = true) :
    grammar.climb (n + 1) least p (t :: ts) =
      if Sign.times.level < least then .ok (p, t :: ts)
      else grammar.expression n (Sign.times.level + 1) (t :: ts) >>= fun right =>
        grammar.climb n least (p ++ right.1 ++ [.operator Sign.times.operator]) right.2 := by
  have required : grammar.required "*" = .ok Sign.times.operator := by
    rw [Grammar.required, operator?_times usual]
  cases t with
  | operator | comma => cases operand
  | number | name | group =>
    simp only [Grammar.climb, required]
    rfl

/-- Behind a finished operand, a multiplication sign is followed by a factor. -/
theorem climb_times (usual : grammar.operators = Operator.initial) {n position : ℕ} {least : Int} :
    grammar.climb (n + 1) least p (.operator "*" position :: tokens) =
      if Sign.times.level < least then .ok (p, .operator "*" position :: tokens)
      else grammar.expression n (Sign.times.level + 1) tokens >>= fun right =>
        grammar.climb n least (p ++ right.1 ++ [.operator Sign.times.operator]) right.2 := by
  simp only [Grammar.climb, operator?_times usual]
  rfl

theorem Spelled.takePostfix (usual : grammar.operators = Operator.initial) (same : p.unplaced = q.unplaced)
    (spelled : Spelled after tokens signed) :
    SameReading (grammar.takePostfix p tokens) (grammar.takePostfix q signed) := by
  induction tokens generalizing after signed p q with
  | nil =>
    cases spelled
    exact ⟨same, .nil⟩
  | cons t ts ih =>
    cases spelled with
    | cons alike later =>
      cases alike with
      | operator =>
        rw [Grammar.takePostfix, Grammar.takePostfix, later.head?_eq]
        split
        · exact ⟨same, .cons .operator later⟩
        dsimp only
        split
        · exact ⟨same, .cons .operator later⟩
        · refine ih ?_ later
          rw [Program.unplaced_append, Program.unplaced_append, same]
      | number => exact ⟨same, .cons .number later⟩
      | name => exact ⟨same, .cons .name later⟩
      | comma => exact ⟨same, .cons .comma later⟩
      | group inside => exact ⟨same, .cons (.group inside) later⟩
    | sign operand alike later =>
      have left : grammar.takePostfix p (t :: ts) = (p, t :: ts) := by
        cases t with
        | operator => cases operand
        | number | name | comma | group => rfl
      rw [left, Grammar.takePostfix, operator?_times_after usual]
      exact ⟨same, .sign operand alike later⟩

/-- With so much work on one side and any on the other, tokens that are spelled alike are read alike. -/
structure ReadsAlike (grammar : Grammar) (n : ℕ) : Prop where
  expression : ∀ m least tokens signed, Spelled false tokens signed →
    SameOutcome SameReading (grammar.expression n least tokens) (grammar.expression m least signed)
  climb : ∀ m least p q tokens signed, Program.unplaced p = Program.unplaced q → Spelled true tokens signed →
    SameOutcome SameReading (grammar.climb n least p tokens) (grammar.climb m least q signed)
  operand : ∀ m tokens signed, Spelled false tokens signed →
    SameOutcome SameReading (grammar.operand n tokens) (grammar.operand m signed)
  primary : ∀ m t u tokens signed, Alike t u → Spelled t.endsFactor tokens signed →
    SameOutcome SameReading (grammar.primary n t tokens) (grammar.primary m u signed)
  complete : ∀ m tokens signed, Spelled false tokens signed →
    SameOutcome (fun p q => p.unplaced = q.unplaced) (grammar.complete n tokens) (grammar.complete m signed)

namespace ReadsAlike

variable {n m : ℕ} {least : Int}

theorem expression_succ (reads : ReadsAlike grammar n) (spelled : Spelled false tokens signed) :
    SameOutcome SameReading (grammar.expression (n + 1) least tokens)
      (grammar.expression (m + 1) least signed) := by
  rw [Grammar.expression, Grammar.expression]
  refine (reads.operand m tokens signed spelled).bind fun read read' alike => ?_
  exact reads.climb m least _ _ _ _ alike.program alike.rest

/-- A right operand was read; then climbing goes on. -/
theorem goOn (reads : ReadsAlike grammar n) {next : Int} {op : Operator} (same : p.unplaced = q.unplaced)
    (spelled : Spelled false tokens signed) :
    SameOutcome SameReading
      (do
        let right ← grammar.expression n next tokens
        grammar.climb n least (p ++ right.1 ++ [.operator op]) right.2)
      (do
        let right ← grammar.expression m next signed
        grammar.climb m least (q ++ right.1 ++ [.operator op]) right.2) := by
  refine (reads.expression m next tokens signed spelled).bind fun right right' alike => ?_
  refine reads.climb m least _ _ _ _ ?_ alike.rest
  simp only [Program.unplaced_append, same, alike.program]

theorem climb_succ (usual : grammar.operators = Operator.initial) (reads : ReadsAlike grammar n)
    (same : p.unplaced = q.unplaced) (spelled : Spelled true tokens signed) :
    SameOutcome SameReading (grammar.climb (n + 1) least p tokens) (grammar.climb (m + 1) least q signed) := by
  have juxtaposed {t u : Token} {ts us : List Token} (operand : t.startsOperand = true) (alike : Alike t u)
      (later : Spelled t.endsFactor ts us) : SameOutcome SameReading
        (grammar.climb (n + 1) least p (t :: ts)) (grammar.climb (m + 1) least q (u :: us)) := by
    rw [climb_operand usual operand, climb_operand usual (alike.startsOperand_eq ▸ operand)]
    split
    · exact ⟨same, .cons alike later⟩
    · exact reads.goOn same (.cons alike later)
  cases spelled with
  | nil => exact ⟨same, .nil⟩
  | cons alike later =>
    cases alike with
    | operator =>
      rw [Grammar.climb, Grammar.climb]
      dsimp only
      split
      · exact ⟨same, .cons .operator later⟩
      split
      · exact ⟨same, .cons .operator later⟩
      · exact reads.goOn same later
    | comma => exact ⟨same, .cons .comma later⟩
    | number => exact juxtaposed rfl .number later
    | name => exact juxtaposed rfl .name later
    | group inside => exact juxtaposed rfl (.group inside) later
  | sign operand alike later =>
    rw [climb_operand usual operand, climb_times usual]
    split
    · exact ⟨same, .sign operand alike later⟩
    · exact reads.goOn same (.cons alike later)

theorem operand_succ (usual : grammar.operators = Operator.initial) (reads : ReadsAlike grammar n)
    (spelled : Spelled false tokens signed) :
    SameOutcome SameReading (grammar.operand (n + 1) tokens) (grammar.operand (m + 1) signed) := by
  cases spelled with
  | nil => trivial
  | @cons _ t u ts us alike later =>
    have plain : SameOutcome SameReading
        (grammar.primary n t ts >>= fun read => return grammar.takePostfix read.1 read.2)
        (grammar.primary m u us >>= fun read => return grammar.takePostfix read.1 read.2) := by
      refine (reads.primary m t u ts us alike later).bind fun read read' same => ?_
      exact same.rest.takePostfix usual same.program
    cases alike with
    | operator =>
      rw [Grammar.operand, Grammar.operand]
      split
      · trivial
      next op _ =>
        refine (reads.expression m op.precedence _ _ later).bind fun read read' same => ?_
        exact ⟨by simp only [Program.unplaced_append, same.program], same.rest⟩
    | number | name | comma | group => exact plain

/-- The pieces between the commas of groups that are spelled alike come to the same programs. -/
theorem pieces (reads : ReadsAlike grammar n) {pieces pieces' : List (List Token)}
    (spelled : List.Forall₂ (Spelled false) pieces pieces') :
    SameOutcome (List.Forall₂ fun p q : Program => p.unplaced = q.unplaced) (pieces.mapM (grammar.complete n))
      (pieces'.mapM (grammar.complete m)) :=
  .mapM (spelled.imp fun _ _ => reads.complete m _ _)

/-- A name alone, a call, or a function before a bare argument: which of them, the next token decides. -/
theorem name_succ (reads : ReadsAlike grammar n) (text : String) (position position' : ℕ)
    (spelled : Spelled false tokens signed) :
    SameOutcome SameReading (grammar.primary (n + 1) (.name text position) tokens)
      (grammar.primary (m + 1) (.name text position') signed) := by
  have alone : SameReading ([.name text position], tokens) ([.name text position'], signed) :=
    ⟨rfl, spelled.behind⟩
  have bare : SameOutcome SameReading
      (grammar.required "^" >>= fun power => grammar.expression n power.precedence tokens >>= fun read =>
        return (read.1 ++ [.call text 1 position], read.2))
      (grammar.required "^" >>= fun power => grammar.expression m power.precedence signed >>= fun read =>
        return (read.1 ++ [.call text 1 position'], read.2)) := by
    cases grammar.required "^" with
    | error => trivial
    | ok power =>
      refine (reads.expression m power.precedence tokens signed spelled).bind fun read read' same => ?_
      refine ⟨?_, same.rest⟩
      simp only [Program.unplaced_append, same.program]
      rfl
  cases function : grammar.isFunction text with
  | false =>
    simp only [Grammar.primary, function]
    exact alone
  | true =>
    cases spelled with
    | nil =>
      simp only [Grammar.primary, function]
      exact alone
    | cons same later =>
      simp only [Grammar.primary, function]
      cases same with
      | operator | comma => exact alone
      | number | name => exact bare
      | group inside =>
        simp only [if_true]
        split
        · refine inside.arguments.bind fun args args' spelled => ?_
          refine (reads.pieces spelled).bind fun programs programs' same => ?_
          refine ⟨?_, later.behind⟩
          simp only [Program.unplaced_append, Program.unplaced_flatten same, spelled.length_eq]
          rfl
        · exact alone

theorem primary_succ (reads : ReadsAlike grammar n) {t u : Token} (alike : Alike t u)
    (spelled : Spelled t.endsFactor tokens signed) :
    SameOutcome SameReading (grammar.primary (n + 1) t tokens) (grammar.primary (m + 1) u signed) := by
  cases alike with
  | number => exact ⟨rfl, spelled⟩
  | @name text position position' => exact reads.name_succ text position position' spelled
  | operator | comma => trivial
  | group inside =>
    rw [Grammar.primary, Grammar.primary]
    refine inside.arguments.bind fun elements elements' elementwise => ?_
    split
    · cases elementwise with
      | nil => trivial
      | cons first others =>
        cases others with
        | nil => exact (reads.complete m _ _ first).bind fun p q same => ⟨same, spelled⟩
        | cons => trivial
    · refine (reads.pieces elementwise).bind fun programs programs' same => ?_
      refine ⟨?_, spelled⟩
      simp only [Program.unplaced_append, Program.unplaced_flatten same, elementwise.length_eq]

theorem complete_succ (reads : ReadsAlike grammar n) (spelled : Spelled false tokens signed) :
    SameOutcome (fun p q => p.unplaced = q.unplaced) (grammar.complete (n + 1) tokens)
      (grammar.complete (m + 1) signed) := by
  rw [Grammar.complete, Grammar.complete, spelled.isEmpty_eq]
  split
  · trivial
  refine (reads.expression m 0 tokens signed spelled).bind fun read read' alike => ?_
  obtain ⟨p, rest⟩ := read
  obtain ⟨q, rest'⟩ := read'
  cases alike.rest with
  | nil => exact alike.program
  | cons | sign => trivial

end ReadsAlike

theorem readsAlike (usual : grammar.operators = Operator.initial) (n : ℕ) : ReadsAlike grammar n := by
  induction n with
  | zero =>
    constructor
    all_goals
      intros
      exact .of_left_lacks
  | succ n reads =>
    constructor
    all_goals
      intro m
      cases m with
      | zero =>
        intros
        exact .of_right_lacks
      | succ m => ?_
    · exact fun _ _ _ => reads.expression_succ
    · exact fun _ _ _ _ _ => reads.climb_succ usual
    · exact fun _ _ => reads.operand_succ usual
    · exact fun _ _ _ _ => reads.primary_succ
    · exact fun _ _ => reads.complete_succ

/-- Multiplication signs between factors and operands change nothing: both lists of tokens are refused, or both
are read to the same program, but for the positions it records. -/
theorem program_spelled (usual : grammar.operators = Operator.initial) (spelled : Spelled false tokens signed) :
    (grammar.program tokens).toOption.map Program.unplaced =
      (grammar.program signed).toOption.map Program.unplaced := by
  have alike := (readsAlike usual (Grammar.workLimit tokens)).complete (Grammar.workLimit signed) tokens signed spelled
  have works := program_ne_unsupported usual tokens
  have works' := program_ne_unsupported usual signed
  unfold Grammar.program at works works' ⊢
  cases left : grammar.complete (Grammar.workLimit tokens) tokens with
  | ok p =>
    cases right : grammar.complete (Grammar.workLimit signed) signed with
    | ok q =>
      rw [left, right] at alike
      exact congrArg some alike
    | error fault =>
      rw [left, right] at alike
      obtain rfl : fault = .unsupported := alike
      exact absurd right works'
  | error fault =>
    cases right : grammar.complete (Grammar.workLimit signed) signed with
    | ok q =>
      rw [left, right] at alike
      obtain rfl : fault = .unsupported := alike
      exact absurd left works
    | error => rfl

end Reading
end ExactAlgebra.Reader
