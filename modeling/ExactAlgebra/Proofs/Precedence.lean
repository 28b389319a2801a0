import ExactAlgebra.Proofs.Phrase
import Mathlib

/-! Precedence climbing reads what is bracketed as it is bracketed. Reading the tokens of an operand
gives its program and goes on behind them; operands put together with a sign whose sides bind tightly
enough are read in the same way, and so are phrases. So the value of written arithmetic depends on its characters
alone, however it is bracketed. -/
namespace ExactAlgebra.Reader

def Sign.level (sign : Sign) : Int := sign.operator.precedence

def Sign.reach (sign : Sign) : Int :=
  if sign.operator.rightAssociative then sign.level else sign.level + 1

def exclamation : Operator := .unary "!" "factorial" 7 .factorial .after

theorem Sign.level_nonneg (sign : Sign) : 0 ≤ sign.level := by
  cases sign <;> decide

theorem Sign.level_le_reach (sign : Sign) : sign.level ≤ sign.reach := by
  cases sign <;> decide

theorem weightAll_append (first second : List Token) :
    Token.weightAll (first ++ second) = Token.weightAll first + Token.weightAll second := by
  induction first with
  | nil => simp [Token.weightAll]
  | cons t rest ih =>
    simp only [List.cons_append, Token.weightAll, ih]
    omega

theorem weightAll_pos {tokens : List Token} (filled : tokens ≠ []) :
    0 < Token.weightAll tokens := by
  cases tokens with
  | nil => exact absurd rfl filled
  | cons t rest =>
    cases t <;> simp only [Token.weightAll, Token.weight] <;> omega

/-- What follows begins with a sign that binds less tightly, or nothing follows. -/
def Stops (least : Int) (rest : List Token) : Prop :=
  ∀ t ∈ rest.head?, ∃ (sign : Sign) (position : Nat),
    t = .operator (String.singleton sign.char) position ∧ sign.level < least

theorem Stops.nil (least : Int) : Stops least [] := by
  intro t member
  cases member

theorem Stops.mono {least more : Int} (le : least ≤ more) {rest : List Token}
    (stops : Stops least rest) : Stops more rest := by
  intro t member
  obtain ⟨sign, position, same, less⟩ := stops t member
  exact ⟨sign, position, same, lt_of_lt_of_le less le⟩

variable {grammar : Grammar}

theorem operator?_sign (usual : grammar.operators = Operator.initial) (sign : Sign) :
    grammar.operator? (String.singleton sign.char) .between = some sign.operator := by
  unfold Grammar.operator?
  rw [usual]
  cases sign <;> rfl

theorem operator?_after (usual : grammar.operators = Operator.initial) (sign : Sign) :
    grammar.operator? (String.singleton sign.char) .after = none := by
  unfold Grammar.operator?
  rw [usual]
  cases sign <;> rfl

theorem operator?_minus (usual : grammar.operators = Operator.initial) :
    grammar.operator? "-" .before = some negation := by
  unfold Grammar.operator?
  rw [usual]
  rfl

theorem operator?_exclamation (usual : grammar.operators = Operator.initial) :
    grammar.operator? "!" .after = some exclamation ∧ grammar.operator? "!" .between = none := by
  unfold Grammar.operator?
  rw [usual]
  exact ⟨rfl, rfl⟩

/-- Reading stops before a sign that binds less tightly than asked for. -/
theorem climb_stops (usual : grammar.operators = Operator.initial) {n : Nat} {least : Int}
    {program : Program} {rest : List Token} (stops : Stops least rest) :
    grammar.climb (n + 1) least program rest = .ok (program, rest) := by
  cases rest with
  | nil => rfl
  | cons t rest =>
    obtain ⟨sign, position, rfl, less⟩ := stops t rfl
    rw [Grammar.climb]
    simp only [operator?_sign usual, Sign.level] at less ⊢
    rw [if_pos less]
    rfl

theorem takePostfix_stops (usual : grammar.operators = Operator.initial) {least : Int}
    {program : Program} {rest : List Token} (stops : Stops least rest) :
    grammar.takePostfix program rest = (program, rest) := by
  cases rest with
  | nil => rfl
  | cons t rest =>
    obtain ⟨sign, position, rfl, less⟩ := stops t rfl
    rw [Grammar.takePostfix, operator?_after usual]

/-- Tokens without commas are one argument. -/
theorem arguments_single {tokens : List Token} (plain : ∀ t ∈ tokens, t.isComma = false)
    (filled : tokens ≠ []) : Grammar.arguments tokens = .ok [tokens] := by
  have whole : Grammar.splitCommas tokens = [tokens] := by
    clear filled
    induction tokens with
    | nil => rfl
    | cons t rest ih =>
      rw [Grammar.splitCommas, ih fun u later => plain u (List.mem_cons_of_mem _ later)]
      simp [plain t List.mem_cons_self]
  simp [Grammar.arguments, whole, filled]

/-- The tokens are read as a program that binds at some level, and reading goes on behind them where
no operator follows that would be drawn into them. -/
structure Reads (grammar : Grammar) (tokens : List Token) (program : Program)
    (level reach : Int) : Prop where
  filled : tokens ≠ []
  plain : ∀ t ∈ tokens, t.isComma = false
  goesOn : ∀ {n : Nat} {least : Int} {rest : List Token}, 4 * Token.weightAll tokens ≤ n →
    least ≤ level → Stops reach rest →
      ∃ m, n ≤ m + Token.weightAll tokens ∧
        grammar.expression n least (tokens ++ rest) = grammar.climb m least program rest

/-- The tokens are an operand by themselves: only operators after an operand can be drawn in. -/
structure Closed (grammar : Grammar) (tokens : List Token) (program : Program) : Prop where
  filled : tokens ≠ []
  plain : ∀ t ∈ tokens, t.isComma = false
  taken : ∀ {n : Nat} (rest : List Token), 4 * Token.weightAll tokens ≤ n + 1 →
    grammar.operand n (tokens ++ rest) = .ok (grammar.takePostfix program rest)

section Operands

variable {tokens left right : List Token} {program first second : Program} {level reach : Int}

/-- An operand in front of what stops it is read completely. -/
theorem Reads.read (usual : grammar.operators = Operator.initial)
    (reads : Reads grammar tokens program level reach) {n : Nat} {least : Int} {rest : List Token}
    (enough : 4 * Token.weightAll tokens ≤ n) (binds : least ≤ level) (reaches : least ≤ reach)
    (stops : Stops least rest) :
    grammar.expression n least (tokens ++ rest) = .ok (program, rest) := by
  have positive := weightAll_pos reads.filled
  obtain ⟨m, remains, read⟩ := reads.goesOn enough binds (stops.mono reaches)
  obtain ⟨k, rfl⟩ : ∃ k, m = k + 1 := ⟨m - 1, by omega⟩
  rw [read]
  exact climb_stops usual stops

theorem Reads.weaken (reads : Reads grammar tokens program level reach) {lower nearer : Int}
    (le : lower ≤ level) (near : nearer ≤ reach) : Reads grammar tokens program lower nearer where
  filled := reads.filled
  plain := reads.plain
  goesOn := fun enough binds stops => reads.goesOn enough (binds.trans le) (stops.mono near)

/-- An operand by itself binds tighter than anything. -/
theorem Closed.reads (usual : grammar.operators = Operator.initial)
    (closed : Closed grammar tokens program) (level reach : Int) :
    Reads grammar tokens program level reach where
  filled := closed.filled
  plain := closed.plain
  goesOn := by
    intro n least rest enough _ stops
    have positive := weightAll_pos closed.filled
    obtain ⟨k, rfl⟩ : ∃ k, n = k + 1 := ⟨n - 1, by omega⟩
    refine ⟨k, by omega, ?_⟩
    rw [Grammar.expression, closed.taken rest enough, takePostfix_stops usual stops]
    rfl

theorem closed_number (text : String) (position : Nat) :
    Closed grammar [.number text position] [.number text] where
  filled := List.cons_ne_nil _ _
  plain := by
    intro t member
    obtain rfl := List.mem_singleton.mp member
    rfl
  taken := by
    intro n rest enough
    simp only [Token.weightAll, Token.weight] at enough
    obtain ⟨k, rfl⟩ : ∃ k, n = k + 2 := ⟨n - 2, by omega⟩
    rfl

theorem closed_name {text : String} (unknown : grammar.isFunction text = false) (position : Nat) :
    Closed grammar [.name text position] [.name text position] where
  filled := List.cons_ne_nil _ _
  plain := by
    intro t member
    obtain rfl := List.mem_singleton.mp member
    rfl
  taken := by
    intro n rest enough
    simp only [Token.weightAll, Token.weight] at enough
    obtain ⟨k, rfl⟩ : ∃ k, n = k + 2 := ⟨n - 2, by omega⟩
    have read : grammar.primary (k + 1) (.name text position) rest =
        .ok ([.name text position], rest) := by
      simp only [Grammar.primary, unknown]
      rfl
    rw [List.singleton_append, Grammar.operand, read]
    · rfl
    · intro symbol place same
      cases same

/-- Parentheses make an operand by itself. -/
theorem Reads.group (usual : grammar.operators = Operator.initial)
    (reads : Reads grammar tokens program level reach) (binds : 0 ≤ level) (reaches : 0 ≤ reach)
    (position : Nat) : Closed grammar [.group "(" position tokens] program where
  filled := List.cons_ne_nil _ _
  plain := by
    intro t member
    obtain rfl := List.mem_singleton.mp member
    rfl
  taken := by
    intro n rest enough
    simp only [Token.weightAll, Token.weight] at enough
    obtain ⟨k, rfl⟩ : ∃ k, n = k + 3 := ⟨n - 3, by omega⟩
    have read := reads.read usual (n := k) (by omega) binds reaches (Stops.nil 0)
    have inside : grammar.complete (k + 1) tokens = .ok program := by
      have filled : tokens.isEmpty = false := by simpa using reads.filled
      rw [List.append_nil] at read
      rw [Grammar.complete, filled, read]
      rfl
    rw [List.singleton_append, Grammar.operand, Grammar.primary]
    · simp only [arguments_single reads.plain reads.filled]
      change (do
        let read ← (do return (← grammar.complete (k + 1) tokens, rest))
        return grammar.takePostfix read.1 read.2) = _
      rw [inside]
      rfl
    · intro symbol place same
      cases same

/-- An exclamation mark behind an operand by itself. -/
theorem Closed.factorial (usual : grammar.operators = Operator.initial)
    (closed : Closed grammar tokens program) (position : Nat) :
    Closed grammar (tokens ++ [.operator "!" position])
      (program ++ [.operator exclamation]) where
  filled := by simp
  plain := by
    intro t member
    rcases List.mem_append.mp member with inside | last
    · exact closed.plain t inside
    · obtain rfl := List.mem_singleton.mp last
      rfl
  taken := by
    intro n rest enough
    rw [weightAll_append] at enough
    obtain ⟨after, between⟩ := operator?_exclamation usual
    rw [List.append_assoc, List.singleton_append, closed.taken _ (by omega), Grammar.takePostfix]
    simp [after, between]

/-- A minus sign in front of an operand that binds at least as tightly. -/
theorem Reads.negative (usual : grammar.operators = Operator.initial)
    (reads : Reads grammar tokens program level reach) (binds : 5 ≤ level) (reaches : 5 ≤ reach)
    (position : Nat) :
    Reads grammar (.operator "-" position :: tokens) (program ++ [.operator negation]) 5 5 where
  filled := List.cons_ne_nil _ _
  plain := by
    intro t member
    rcases List.mem_cons.mp member with rfl | later
    · rfl
    · exact reads.plain t later
  goesOn := by
    intro n least rest enough _ stops
    simp only [Token.weightAll, Token.weight] at enough ⊢
    obtain ⟨k, rfl⟩ : ∃ k, n = k + 2 := ⟨n - 2, by omega⟩
    refine ⟨k + 1, by omega, ?_⟩
    rw [List.cons_append, Grammar.expression, Grammar.operand, operator?_minus usual]
    change (do
      let read ← (do
        let inner ← grammar.expression k 5 (tokens ++ rest)
        return (inner.1 ++ [Instruction.operator negation], inner.2))
      grammar.climb (k + 1) least read.1 read.2) = _
    rw [reads.read usual (by omega) binds reaches stops]
    rfl

/-- A sign between two operands that bind as tightly as their sides ask for. The left one must also
end before the sign. -/
theorem Reads.binary (usual : grammar.operators = Operator.initial) (sign : Sign)
    {leftLevel leftReach rightLevel rightReach : Int}
    (readsLeft : Reads grammar left first leftLevel leftReach)
    (readsRight : Reads grammar right second rightLevel rightReach)
    (bindsLeft : sign.level ≤ leftLevel) (ends : sign.level < leftReach)
    (bindsRight : sign.reach ≤ rightLevel) (reachesRight : sign.reach ≤ rightReach)
    (position : Nat) :
    Reads grammar (left ++ .operator (String.singleton sign.char) position :: right)
      (first ++ second ++ [.operator sign.operator]) sign.level sign.reach where
  filled := by simp
  plain := by
    intro t member
    rcases List.mem_append.mp member with before | behind
    · exact readsLeft.plain t before
    · rcases List.mem_cons.mp behind with rfl | later
      · rfl
      · exact readsRight.plain t later
  goesOn := by
    intro n least rest enough binds stops
    rw [weightAll_append] at enough ⊢
    simp only [Token.weightAll, Token.weight] at enough ⊢
    have follows : Stops leftReach (.operator (String.singleton sign.char) position :: right ++ rest) := by
      intro t head
      obtain rfl := Option.mem_some_iff.mp head
      exact ⟨sign, position, rfl, ends⟩
    obtain ⟨m, remains, read⟩ := readsLeft.goesOn (n := n) (by omega) (binds.trans bindsLeft) follows
    obtain ⟨k, rfl⟩ : ∃ k, m = k + 1 := ⟨m - 1, by omega⟩
    refine ⟨k, by omega, ?_⟩
    have notLess : ¬ sign.operator.precedence < least := not_lt.mpr binds
    rw [List.append_assoc, read, List.cons_append, Grammar.climb]
    simp only [operator?_sign usual, notLess, if_false]
    change (do
      let read ← grammar.expression k sign.reach (right ++ rest)
      grammar.climb k least (first ++ read.1 ++ [Instruction.operator sign.operator]) read.2) = _
    rw [readsRight.read usual (by omega) bindsRight reachesRight stops]
    rfl

/-- What is read as one operand is a whole program. -/
theorem Reads.program_eq (usual : grammar.operators = Operator.initial)
    (reads : Reads grammar tokens program level reach) (binds : 0 ≤ level) (reaches : 0 ≤ reach) :
    grammar.program tokens = .ok program := by
  obtain ⟨n, limit⟩ : ∃ n, Grammar.workLimit tokens = n + 1 :=
    ⟨8 * Token.weightAll tokens + 15, by rw [Grammar.workLimit]; omega⟩
  have enough : 4 * Token.weightAll tokens ≤ n := by
    rw [Grammar.workLimit] at limit
    omega
  have read := reads.read usual enough binds reaches (Stops.nil 0)
  have filled : tokens.isEmpty = false := by simpa using reads.filled
  rw [List.append_nil] at read
  rw [Grammar.program, limit, Grammar.complete, filled, read]
  rfl

end Operands

namespace Phrase

def level : Phrase → Int
  | number _ | name _ | group _ => 7
  | negative _ => 5
  | binary sign _ _ => sign.level

/-- The least level at which an operator behind the phrase would be drawn into it. -/
def reach : Phrase → Int
  | number _ | name _ | group _ => 7
  | negative _ => 5
  | binary sign _ _ => sign.reach

def leftLevel : Sign → Int
  | .raised => 7
  | sign => sign.level

/-- Every operand binds as tightly as its place asks for. -/
def Fits : Phrase → Prop
  | number _ | name _ => True
  | negative a => a.Fits ∧ 5 ≤ a.level
  | binary sign a b => a.Fits ∧ b.Fits ∧ leftLevel sign ≤ a.level ∧ sign.reach ≤ b.level
  | group a => a.Fits

def Plain (grammar : Grammar) : Phrase → Prop
  | number _ => True
  | name text => grammar.isFunction text = false
  | negative a | group a => a.Plain grammar
  | binary _ a b => a.Plain grammar ∧ b.Plain grammar

def program (position : Nat) : Phrase → Program
  | number n => [.number (toString n)]
  | name text => [.name text position]
  | negative a => a.program (position + 1) ++ [.operator negation]
  | binary sign a b =>
    a.program position ++ b.program (position + a.chars.length + 1) ++ [.operator sign.operator]
  | group a => a.program (position + 1)

/-- What binds tighter reaches further. -/
theorem lt_reach {phrase : Phrase} {sign : Sign} (binds : leftLevel sign ≤ phrase.level) :
    sign.level < phrase.reach := by
  cases phrase with
  | number | name | group =>
    change sign.level < 7
    cases sign <;> decide
  | negative =>
    revert binds
    change leftLevel sign ≤ 5 → sign.level < 5
    cases sign <;> decide
  | binary inner =>
    revert binds
    change leftLevel sign ≤ inner.level → sign.level < inner.reach
    cases sign <;> cases inner <;> decide

theorem level_le_reach (phrase : Phrase) : phrase.level ≤ phrase.reach := by
  cases phrase with
  | number | name | group | negative => exact le_refl _
  | binary sign => exact sign.level_le_reach

theorem level_nonneg (phrase : Phrase) : 0 ≤ phrase.level := by
  cases phrase with
  | number | name | group | negative => exact Int.natCast_nonneg _
  | binary sign => exact sign.level_nonneg

theorem level_le_leftLevel (sign : Sign) : sign.level ≤ leftLevel sign := by
  cases sign <;> decide

end Phrase

/-- The tokens of a phrase are read as its program. -/
theorem reads_phrase (usual : grammar.operators = Operator.initial) (phrase : Phrase)
    (plain : phrase.Plain grammar) (fits : phrase.Fits) (position : Nat) :
    Reads grammar (phrase.tokens position) (phrase.program position) phrase.level phrase.reach := by
  induction phrase generalizing position with
  | number value => exact (closed_number _ _).reads usual _ _
  | name text => exact (closed_name plain _).reads usual _ _
  | negative a ih =>
    have reads := ih plain fits.1 (position + 1)
    exact reads.negative usual fits.2 (fits.2.trans a.level_le_reach) position
  | binary sign a b ihA ihB =>
    obtain ⟨fitsA, fitsB, bindsA, bindsB⟩ := fits
    have readsA := ihA plain.1 fitsA position
    have readsB := ihB plain.2 fitsB (position + a.chars.length + 1)
    have levelA : sign.level ≤ a.level := (Phrase.level_le_leftLevel sign).trans bindsA
    exact readsA.binary usual sign readsB levelA (Phrase.lt_reach bindsA) bindsB
      (bindsB.trans b.level_le_reach) _
  | group a ih =>
    have reads := ih plain fits (position + 1)
    have reaches : 0 ≤ a.reach := a.level_nonneg.trans a.level_le_reach
    exact (reads.group usual a.level_nonneg reaches position).reads usual _ _

/-- The program of a phrase is what its tokens are read as. -/
theorem program_phrase (usual : grammar.operators = Operator.initial) (phrase : Phrase)
    (plain : phrase.Plain grammar) (fits : phrase.Fits) (position : Nat) :
    grammar.program (phrase.tokens position) = .ok (phrase.program position) :=
  (reads_phrase usual phrase plain fits position).program_eq usual phrase.level_nonneg
    (phrase.level_nonneg.trans phrase.level_le_reach)

section Values
open Text

def Phrase.value (ρ : String → ℚ) : Phrase → ℚ
  | number n => n
  | name text => ρ text
  | negative a => -a.value ρ
  | binary .plus a b => a.value ρ + b.value ρ
  | binary .minus a b => a.value ρ - b.value ρ
  | binary .times a b => a.value ρ * b.value ρ
  | binary .divided a b => a.value ρ / b.value ρ
  | binary .raised a b => a.value ρ ^ (b.value ρ).num
  | group a => a.value ρ

/-- Carries out an instruction on a stack of numbers, the last one first. -/
def Instruction.act (ρ : String → ℚ) (stack : List ℚ) : Instruction → List ℚ
  | .number text => (naturalOf text.toList : ℚ) :: stack
  | .name text _ => ρ text :: stack
  | .operator op =>
    match op.action, stack with
    | .add, b :: a :: rest => (a + b) :: rest
    | .subtract, b :: a :: rest => (a - b) :: rest
    | .multiply, b :: a :: rest => (a * b) :: rest
    | .divide, b :: a :: rest => (a / b) :: rest
    | .power, b :: a :: rest => (a ^ b.num) :: rest
    | .negate, a :: rest => (-a) :: rest
    | _, stack => stack
  | _ => stack

/-- The program of a phrase leaves its value on the stack. -/
theorem foldl_program (ρ : String → ℚ) (phrase : Phrase) (position : Nat) (stack : List ℚ) :
    (phrase.program position).foldl (Instruction.act ρ) stack = phrase.value ρ :: stack := by
  induction phrase generalizing position stack with
  | number n =>
    simp only [Phrase.program, List.foldl_cons, List.foldl_nil, Instruction.act,
      naturalOf_toString, Phrase.value]
  | name text => rfl
  | negative a ih =>
    rw [Phrase.program, List.foldl_append, ih]
    rfl
  | binary sign a b ihA ihB =>
    rw [Phrase.program, List.foldl_append, List.foldl_append, ihA, ihB]
    cases sign <;> rfl
  | group a ih => exact ih _ _

/-- A grammar with the usual operators in which no name is that of a function. -/
def arithmetic : Grammar := ⟨Operator.initial, fun _ => false⟩

theorem Phrase.plain_arithmetic (phrase : Phrase) : phrase.Plain arithmetic := by
  induction phrase with
  | number => trivial
  | name => rfl
  | negative a ih => exact ih
  | binary sign a b ihA ihB => exact ⟨ihA, ihB⟩
  | group a ih => exact ih

/-- Written arithmetic is unambiguous: the value of a phrase depends on its characters alone. -/
theorem Phrase.value_eq_of_chars_eq {a b : Phrase} (spelledA : a.Spelled) (fitsA : a.Fits)
    (spelledB : b.Spelled) (fitsB : b.Fits) (same : a.chars = b.chars) (ρ : String → ℚ) :
    a.value ρ = b.value ρ := by
  have tokens : a.tokens 0 = b.tokens 0 := by
    have cutA := tokenize_phrase a spelledA (String.toList_ofList (l := a.chars))
    have cutB := tokenize_phrase b spelledB (String.toList_ofList (l := b.chars))
    rw [same, cutB] at cutA
    exact (Except.ok.inj cutA).symm
  have program : a.program 0 = b.program 0 := by
    have readA := @program_phrase arithmetic rfl a a.plain_arithmetic fitsA 0
    have readB := @program_phrase arithmetic rfl b b.plain_arithmetic fitsB 0
    rw [tokens, readB] at readA
    exact (Except.ok.inj readA).symm
  have runA := foldl_program ρ a 0 []
  rw [program, foldl_program ρ b 0 []] at runA
  exact (List.cons.inj runA).1.symm

end Values
end ExactAlgebra.Reader
