import ExactAlgebra.Proofs.Precedence
import Mathlib

/-! Parentheses where they are needed. A tree of signs is written with parentheses only around an
operand that would otherwise be taken apart, and reading the tokens gives its postfix program. -/
namespace ExactAlgebra.Reader

/-- What a program computes, as a tree: numbers and names with signs between them, minus signs in
front and exclamation marks behind. A name keeps the position at which it is written. -/
inductive Tree
  | number (text : String)
  | name (text : String) (position : Nat)
  | negative (operand : Tree)
  | factorial (operand : Tree)
  | binary (sign : Sign) (left right : Tree)

namespace Tree

/-- The postfix program of a tree: its nodes, each behind its operands. -/
def program : Tree → Program
  | number text => [.number text]
  | name text position => [.name text position]
  | negative a => a.program ++ [.operator negation]
  | factorial a => a.program ++ [.operator exclamation]
  | binary sign a b => a.program ++ b.program ++ [.operator sign.operator]

/-- The precedence of the outermost node; a leaf binds tighter than any operator. -/
def level : Tree → Int
  | number _ | name .. => 8
  | negative _ => negation.precedence
  | factorial _ => exclamation.precedence
  | binary sign _ _ => sign.level

def parenthesizedBefore (sign : Sign) (a : Tree) : Bool :=
  if sign.operator.rightAssociative then a.level ≤ sign.level else a.level < sign.level

def parenthesizedBehind (sign : Sign) (a : Tree) : Bool :=
  if sign.operator.rightAssociative then a.level < sign.level else a.level ≤ sign.level

/-- The outermost node stands between two operands or in front of one. -/
def isInfixOrPrefix : Tree → Bool
  | negative _ | binary .. => true
  | number _ | name .. | factorial _ => false

def InPlace (parenthesized : Bool) (Printed : List Token → Prop) (tokens : List Token) : Prop :=
  if parenthesized then ∃ position inside, Printed inside ∧ tokens = [.group "(" position inside]
  else Printed tokens

/-- The tokens are the tree as it is printed, wherever they stand in a text. -/
def Prints : Tree → List Token → Prop
  | number text, tokens => ∃ position, tokens = [.number text position]
  | name text position, tokens => tokens = [.name text position]
  | negative a, tokens => ∃ position operand,
    InPlace (a.level < negation.precedence) a.Prints operand ∧
      tokens = .operator "-" position :: operand
  | factorial a, tokens => ∃ position operand,
    InPlace a.isInfixOrPrefix a.Prints operand ∧ tokens = operand ++ [.operator "!" position]
  | binary sign a b, tokens => ∃ position left right,
    InPlace (a.parenthesizedBefore sign) a.Prints left ∧
    InPlace (b.parenthesizedBehind sign) b.Prints right ∧
      tokens = left ++ .operator (String.singleton sign.char) position :: right

/-- Every tree can be printed. -/
theorem exists_prints (a : Tree) : ∃ tokens, a.Prints tokens := by
  have place {a : Tree} (printed : ∃ tokens, a.Prints tokens) (parenthesized : Bool) :
      ∃ tokens, InPlace parenthesized a.Prints tokens := by
    obtain ⟨tokens, shown⟩ := printed
    cases parenthesized with
    | true => exact ⟨_, 0, tokens, shown, rfl⟩
    | false => exact ⟨tokens, shown⟩
  induction a with
  | number text => exact ⟨_, 0, rfl⟩
  | name text position => exact ⟨_, rfl⟩
  | negative a ih =>
    obtain ⟨operand, placed⟩ := place ih (a.level < negation.precedence)
    exact ⟨_, 0, operand, placed, rfl⟩
  | factorial a ih =>
    obtain ⟨operand, placed⟩ := place ih a.isInfixOrPrefix
    exact ⟨_, 0, operand, placed, rfl⟩
  | binary sign a b ihA ihB =>
    obtain ⟨left, placedA⟩ := place ihA (a.parenthesizedBefore sign)
    obtain ⟨right, placedB⟩ := place ihB (b.parenthesizedBehind sign)
    exact ⟨_, 0, left, right, placedA, placedB, rfl⟩

/-- No name is that of a function. -/
def Plain (grammar : Grammar) : Tree → Prop
  | number _ => True
  | name text _ => grammar.isFunction text = false
  | negative a | factorial a => a.Plain grammar
  | binary _ a b => a.Plain grammar ∧ b.Plain grammar

/-- The least level at which an operator behind the printed tree would be drawn into it. -/
def reach : Tree → Int
  | number _ | name .. => 8
  | negative _ => negation.precedence
  | factorial _ => exclamation.precedence
  | binary sign _ _ => sign.reach

theorem level_le_reach (a : Tree) : a.level ≤ a.reach := by
  cases a with
  | number | name | negative | factorial => exact le_refl _
  | binary sign => exact sign.level_le_reach

theorem level_nonneg (a : Tree) : 0 ≤ a.level := by
  cases a with
  | number | name | negative | factorial => exact Int.natCast_nonneg _
  | binary sign => exact sign.level_nonneg

/-- Without parentheses a left operand binds at least as tightly as the sign and ends before it. -/
theorem before_bare {sign : Sign} {a : Tree} (bare : a.parenthesizedBefore sign = false) :
    sign.level ≤ a.level ∧ sign.level < a.reach := by
  cases a with
  | number | name =>
    have below : sign.level < 8 := by cases sign <;> decide
    exact ⟨below.le, below⟩
  | factorial =>
    have below : sign.level < exclamation.precedence := by cases sign <;> decide
    exact ⟨below.le, below⟩
  | negative =>
    revert bare
    change (if sign.operator.rightAssociative then decide (negation.precedence ≤ sign.level)
      else decide (negation.precedence < sign.level)) = false →
        sign.level ≤ negation.precedence ∧ sign.level < negation.precedence
    cases sign <;> decide
  | binary inner =>
    revert bare
    change (if sign.operator.rightAssociative then decide (inner.level ≤ sign.level)
      else decide (inner.level < sign.level)) = false → sign.level ≤ inner.level ∧ sign.level < inner.reach
    cases sign <;> cases inner <;> decide

/-- Without parentheses a right operand binds as tightly as the sign asks for. -/
theorem behind_bare {sign : Sign} {a : Tree} (bare : a.parenthesizedBehind sign = false) :
    sign.reach ≤ a.level := by
  unfold parenthesizedBehind at bare
  unfold Sign.reach
  split at bare
  next right =>
    rw [if_pos right]
    simpa using bare
  next left =>
    rw [if_neg left]
    simpa [Int.add_one_le_iff] using bare

end Tree

variable {grammar : Grammar}

/-- A tree in its place is read with the level and the reach that it has without parentheses. -/
theorem reads_inPlace (usual : grammar.operators = Operator.initial) {a : Tree}
    (reads : ∀ tokens, a.Prints tokens → Reads grammar tokens a.program a.level a.reach)
    {parenthesized : Bool} {tokens : List Token}
    (placed : Tree.InPlace parenthesized a.Prints tokens) {level reach : Int}
    (bare : parenthesized = false → level ≤ a.level ∧ reach ≤ a.reach) :
    Reads grammar tokens a.program level reach := by
  cases parenthesized with
  | true =>
    obtain ⟨position, inside, printed, rfl⟩ := placed
    have binds := a.level_nonneg
    have closed := (reads inside printed).group usual binds (binds.trans a.level_le_reach) position
    exact closed.reads usual level reach
  | false =>
    obtain ⟨le, near⟩ := bare rfl
    exact (reads tokens placed).weaken le near

/-- The tokens of a printed tree are read as its program; a leaf or a factorial is an operand by
itself. -/
theorem reads_printed (usual : grammar.operators = Operator.initial) (a : Tree)
    (plain : a.Plain grammar) (tokens : List Token) (printed : a.Prints tokens) :
    Reads grammar tokens a.program a.level a.reach ∧
      (a.isInfixOrPrefix = false → Closed grammar tokens a.program) := by
  induction a generalizing tokens with
  | number text =>
    obtain ⟨position, rfl⟩ := printed
    have closed : Closed grammar _ _ := closed_number text position
    exact ⟨closed.reads usual _ _, fun _ => closed⟩
  | name text position =>
    obtain rfl := printed
    have closed := closed_name plain position
    exact ⟨closed.reads usual _ _, fun _ => closed⟩
  | negative a ih =>
    obtain ⟨position, operand, placed, rfl⟩ := printed
    constructor
    · have reads : Reads grammar operand a.program 5 5 := by
        refine reads_inPlace usual (fun inside shown => (ih plain inside shown).1) placed ?_
        intro bare
        have binds : 5 ≤ a.level := not_lt.mp (of_decide_eq_false bare)
        exact ⟨binds, binds.trans a.level_le_reach⟩
      exact reads.negative usual le_rfl le_rfl position
    · intro outermost
      cases outermost
  | factorial a ih =>
    obtain ⟨position, operand, placed, rfl⟩ := printed
    have closed : Closed grammar operand a.program := by
      cases outermost : a.isInfixOrPrefix with
      | true =>
        rw [outermost] at placed
        obtain ⟨start, inside, shown, rfl⟩ := placed
        have binds := a.level_nonneg
        exact (ih plain inside shown).1.group usual binds (binds.trans a.level_le_reach) start
      | false =>
        rw [outermost] at placed
        exact (ih plain operand placed).2 outermost
    have marked := closed.factorial usual position
    exact ⟨marked.reads usual _ _, fun _ => marked⟩
  | binary sign a b ihA ihB =>
    obtain ⟨position, left, right, placedA, placedB, rfl⟩ := printed
    constructor
    · have readsA : Reads grammar left a.program sign.level (sign.level + 1) :=
        reads_inPlace usual (fun inside shown => (ihA plain.1 inside shown).1) placedA
          Tree.before_bare
      have readsB : Reads grammar right b.program sign.reach sign.reach := by
        refine reads_inPlace usual (fun inside shown => (ihB plain.2 inside shown).1) placedB ?_
        intro bare
        have binds := Tree.behind_bare bare
        exact ⟨binds, binds.trans b.level_le_reach⟩
      exact readsA.binary usual sign readsB le_rfl (Int.lt_succ _) le_rfl le_rfl position
    · intro outermost
      cases outermost

/-- Every tree can be printed, and reading a printed tree gives its postfix program: parentheses stand
wherever they are needed. -/
theorem program_printed (usual : grammar.operators = Operator.initial) (a : Tree)
    (plain : a.Plain grammar) :
    (∃ tokens, a.Prints tokens) ∧ ∀ tokens, a.Prints tokens → grammar.program tokens = .ok a.program := by
  refine ⟨a.exists_prints, fun tokens printed => ?_⟩
  exact (reads_printed usual a plain tokens printed).1.program_eq usual a.level_nonneg
    (a.level_nonneg.trans a.level_le_reach)

/-- A session reads `-(a*-2)^b!^c`: the minus sign in front reaches to the end, the powers belong
together from the right. -/
theorem program_negative_power :
    Session.initial.grammar.program
      [.operator "-" 0,
        .group "(" 1 [.name "a" 2, .operator "*" 3, .operator "-" 4, .number "2" 5],
        .operator "^" 7, .name "b" 8, .operator "!" 9, .operator "^" 10, .name "c" 11] =
      .ok [.name "a" 2, .number "2", .operator negation, .operator Sign.times.operator,
        .name "b" 8, .operator exclamation, .name "c" 11, .operator Sign.raised.operator,
        .operator Sign.raised.operator, .operator negation] := by
  let inside := Tree.binary .times (.name "a" 2) (.negative (.number "2"))
  let power := Tree.binary .raised (.factorial (.name "b" 8)) (.name "c" 11)
  refine (program_printed rfl (.negative (.binary .raised inside power)) ?_).2 _ ?_
  · refine ⟨⟨?_, trivial⟩, ?_, ?_⟩
    all_goals
      change Session.initial.grammar.isFunction _ = false
      decide +kernel
  · have times : inside.Prints
        [.name "a" 2, .operator "*" 3, .operator "-" 4, .number "2" 5] :=
      ⟨3, _, _, rfl, ⟨4, _, ⟨5, rfl⟩, rfl⟩, rfl⟩
    have raised : power.Prints [.name "b" 8, .operator "!" 9, .operator "^" 10, .name "c" 11] :=
      ⟨10, _, _, ⟨9, _, rfl, rfl⟩, rfl, rfl⟩
    exact ⟨0, _, ⟨7, _, _, ⟨1, _, times, rfl⟩, raised, rfl⟩, rfl⟩

end ExactAlgebra.Reader
