import ExactAlgebra.Session.Basic
import ExactAlgebra.Proofs.Decimal
import ExactAlgebra.Proofs.WellFormed
import Mathlib

/-! Written arithmetic as a tree: whole numbers, names, a minus sign in front, the five signs between
two operands, and parentheses. A phrase has its characters and its tokens, and cutting the characters
gives the tokens, whatever stands around them. -/
namespace ExactAlgebra.Reader
open Text

inductive Sign
  | plus | minus | times | divided | raised

def Sign.operator : Sign → Operator
  | plus => .binary "+" "add" 3 .add
  | minus => .binary "-" "subtract" 3 .subtract
  | times => .binary "*" "multiply" 4 .multiply
  | divided => .binary "/" "divide" 4 .divide
  | raised => { Operator.binary "^" "pow" 6 .power with rightAssociative := true }

def negation : Operator := .unary "-" "negate" 5 .negate .before

def Sign.char : Sign → Char
  | plus => '+'
  | minus => '-'
  | times => '*'
  | divided => '/'
  | raised => '^'

/-- Arithmetic as it is written. -/
inductive Phrase
  | number (value : Nat)
  | name (text : String)
  | negative (operand : Phrase)
  | binary (sign : Sign) (left right : Phrase)
  | group (inside : Phrase)

namespace Phrase

def chars : Phrase → List Char
  | number n => (toString n).toList
  | name text => text.toList
  | negative a => '-' :: a.chars
  | binary sign a b => a.chars ++ sign.char :: b.chars
  | group a => '(' :: a.chars ++ [')']

/-- The tokens of a phrase that begins at a position. -/
def tokens (position : Nat) : Phrase → List Token
  | number n => [.number (toString n) position]
  | name text => [.name text position]
  | negative a => .operator "-" position :: a.tokens (position + 1)
  | binary sign a b =>
    let place := position + a.chars.length
    a.tokens position ++ .operator (String.singleton sign.char) place :: b.tokens (place + 1)
  | group a => [.group "(" position (a.tokens (position + 1))]

/-- All names are identifiers. -/
def Spelled : Phrase → Prop
  | number _ => True
  | name text => Expr.Identifier text
  | negative a | group a => a.Spelled
  | binary _ a b => a.Spelled ∧ b.Spelled

end Phrase

/-- A sign or a closing parenthesis: where a number or a name ends. -/
def closesWord (c : Char) : Bool :=
  c == '+' || c == '-' || c == '*' || c == '/' || c == '^' || c == ')'

/-- A text in front of which a number or a name is at its end. -/
def Parted (rest : List Char) : Prop := ∀ c ∈ rest.head?, closesWord c = true

theorem Parted.nil : Parted [] := by
  intro c member
  cases member

theorem Parted.cons {c : Char} {rest : List Char} (closes : closesWord c = true) :
    Parted (c :: rest) := by
  intro d member
  obtain rfl := Option.mem_some_iff.mp member
  exact closes

theorem closesWord_sign (sign : Sign) : closesWord sign.char = true := by
  cases sign <;> rfl

/-- What holds of the characters of the basic set holds of every character in it. -/
theorem ascii_induction {motive : Char → Prop} (small : ∀ n : Fin 128, motive (Char.ofNat n))
    {c : Char} (ascii : c.toNat < 128) : motive c := by
  have holds := small ⟨c.toNat, ascii⟩
  rwa [Char.ofNat_toNat] at holds

theorem closesWord_eq {c : Char} (closes : closesWord c = true) :
    c = '+' ∨ c = '-' ∨ c = '*' ∨ c = '/' ∨ c = '^' ∨ c = ')' := by
  simpa [closesWord, or_assoc] using closes

/-- What ends a word is no part of one. -/
theorem closesWord_outside {c : Char} (closes : closesWord c = true) :
    isDecimal c = false ∧ continuesName c = false ∧ c ≠ '.' ∧ c ≠ 'e' ∧ c ≠ 'E' := by
  rcases closesWord_eq closes with rfl | rfl | rfl | rfl | rfl | rfl <;> decide

theorem continuesName_ascii {c : Char} (continues : continuesName c = true) : c.toNat < 128 := by
  simp only [continuesName, Char.isAlphanum, Char.isAlpha, Char.isUpper, Char.isLower, Char.isDigit,
    Bool.or_eq_true, Bool.and_eq_true, decide_eq_true_eq, UInt32.le_iff_toNat_le, beq_iff_eq]
    at continues
  have upper : 'Z'.val.toNat = 90 := rfl
  have lower : 'z'.val.toNat = 122 := rfl
  have nine : '9'.val.toNat = 57 := rfl
  rcases continues with letterOrDigit | rfl
  · change c.val.toNat < 128
    omega
  · decide

theorem startsName_continues {c : Char} (starts : startsName c = true) : continuesName c = true := by
  simp only [startsName, continuesName, Char.isAlphanum, Bool.or_eq_true] at starts ⊢
  exact starts.imp_left .inl

/-- A letter begins a name and nothing else. -/
theorem startsName_only {c : Char} (starts : startsName c = true) :
    isBlank c = false ∧ isDigit c = false ∧ c ≠ '.' ∧ (isLetter c || c == '_') = true := by
  have ascii := continuesName_ascii (startsName_continues starts)
  revert starts
  refine ascii_induction (motive := fun c => startsName c = true →
    isBlank c = false ∧ isDigit c = false ∧ c ≠ '.' ∧ (isLetter c || c == '_') = true) ?_ ascii
  decide +kernel

/-- A digit begins a number and nothing else. -/
theorem isDigit_only {c : Char} (digit : c.isDigit = true) :
    isBlank c = false ∧ isDecimal c = true := by
  have continues : continuesName c = true := by simp [continuesName, Char.isAlphanum, digit]
  revert digit
  refine ascii_induction (motive := fun c => c.isDigit = true →
    isBlank c = false ∧ isDecimal c = true) ?_ (continuesName_ascii continues)
  decide +kernel

theorem takeWhile_append_parted {p : Char → Bool} {word : List Char} (rest : List Char)
    (inside : ∀ c ∈ word, p c = true) (ends : ∀ c ∈ rest.head?, p c = false) :
    (word ++ rest).takeWhile p = word ∧ (word ++ rest).dropWhile p = rest := by
  have stops : rest.takeWhile p = [] ∧ rest.dropWhile p = rest := by
    cases rest with
    | nil => exact ⟨rfl, rfl⟩
    | cons c rest =>
      have outside := ends c rfl
      exact ⟨by simp [outside], by simp [outside]⟩
  rw [List.takeWhile_append_of_pos inside, List.dropWhile_append_of_pos inside, stops.1, stops.2]
  exact ⟨List.append_nil word, rfl⟩

theorem takeNumber?_digits {n : Nat} {rest : List Char} (parted : Parted rest) :
    takeNumber? ((toString n).toList ++ rest) = some ((toString n).toList, rest) := by
  obtain ⟨taken, dropped⟩ := takeWhile_append_parted (p := isDecimal) rest
    (fun c member => isDecimal_of_isDigit (isDigit_of_mem_toString (n := n) member))
    fun c first => (closesWord_outside (parted c first)).1
  have whole : (toString n).toList.isEmpty = false := by
    simp
  have plain : withExponent (toString n).toList rest = ((toString n).toList, rest) := by
    cases rest with
    | nil => rfl
    | cons c rest =>
      obtain ⟨_, _, _, lower, upper⟩ := closesWord_outside (parted c rfl)
      simp [withExponent, Rational.takeExponent?, lower, upper]
  unfold takeNumber?
  simp only [taken, dropped, whole, Bool.false_eq_true, if_false]
  split
  next point => exact absurd rfl (closesWord_outside (parted '.' rfl)).2.2.1
  next => rw [plain]

/-- The characters of an identifier: one that begins a name, and more that continue it. -/
theorem identifier_chars {name : String} (named : Expr.Identifier name) :
    ∃ c word, name.toList = c :: word ∧ startsName c = true ∧
      ∀ d ∈ word, continuesName d = true := by
  unfold Expr.Identifier at named
  cases shape : name.toList with
  | nil =>
    rw [shape] at named
    cases named
  | cons c word =>
    rw [shape, takeName?] at named
    split at named
    next starts =>
      have taken := (Prod.mk.inj (Option.some.inj named)).1
      refine ⟨c, word, rfl, starts, fun d member => ?_⟩
      rw [← (List.cons.inj taken).2] at member
      exact List.mem_takeWhile_imp member
    next => cases named

theorem isIntegerText_identifier {name : String} (spelled : Expr.Identifier name) :
    isIntegerText name = false := by
  obtain ⟨c, word, shape, starts, _⟩ := identifier_chars spelled
  obtain ⟨_, digit, _, _⟩ := startsName_only starts
  have letter : c ≠ '-' := by
    rintro rfl
    exact absurd starts (by decide)
  unfold isIntegerText
  rw [shape]
  split
  next same => exact absurd (List.cons.inj same).1 letter
  next => simp [digit]

theorem startsWith_minus_identifier {name : String} (named : Expr.Identifier name) :
    name.startsWith '-' = false := by
  obtain ⟨c, word, shape, starts, _⟩ := identifier_chars named
  have letter : c ≠ '-' := by
    rintro rfl
    exact absurd starts (by decide)
  rw [String.startsWith_char_eq_head?, shape]
  simpa using letter

theorem takeName?_append {name : String} (named : Expr.Identifier name) {rest : List Char}
    (ends : ∀ c ∈ rest.head?, continuesName c = false) :
    takeName? (name.toList ++ rest) = some (name.toList, rest) := by
  obtain ⟨c, word, shape, starts, inside⟩ := identifier_chars named
  obtain ⟨taken, dropped⟩ := takeWhile_append_parted rest inside ends
  rw [shape, List.cons_append, takeName?, if_pos starts, taken, dropped]

theorem takeName?_identifier {name : String} (named : Expr.Identifier name) {rest : List Char}
    (parted : Parted rest) : takeName? (name.toList ++ rest) = some (name.toList, rest) :=
  takeName?_append named fun c first => (closesWord_outside (parted c first)).2.1

/-- The operators of a new session have one character each, so their order does not matter. -/
theorem symbols_initial :
    Session.initial.lexicon.symbols = ["=", "+", "-", "*", "/", "%", "^", "!"] := by
  have distinct : (Session.initial.operators.map (·.1.1)).eraseDups =
      ["=", "+", "-", "*", "/", "%", "^", "!"] := by decide
  unfold Session.lexicon
  rw [distinct]
  exact List.mergeSort_of_pairwise (by decide)

theorem symbolAt?_sign (sign : Sign) (rest : List Char) :
    Session.initial.lexicon.symbolAt? (sign.char :: rest) = some (String.singleton sign.char) := by
  unfold Lexicon.symbolAt?
  rw [symbols_initial]
  cases sign <;> rfl

section Scan

variable {position : Nat} {done : List Token} {groups : List OpenGroup} {rest : List Char}

/-- Characters of a token already read are passed over. -/
theorem scan_skip (lexicon : Lexicon) (word : List Char) :
    lexicon.scan word.length position done groups (word ++ rest) =
      lexicon.scan 0 (position + word.length) done groups rest := by
  induction word generalizing position with
  | nil => rfl
  | cons c word ih =>
    rw [List.cons_append, List.length_cons, Lexicon.scan, ih]
    congr 1
    omega

theorem scan_number (lexicon : Lexicon) (n : Nat) (parted : Parted rest) :
    lexicon.scan 0 position done groups ((toString n).toList ++ rest) =
      lexicon.scan 0 (position + (toString n).toList.length)
        (.number (toString n) position :: done) groups rest := by
  have found := takeNumber?_digits (n := n) parted
  cases shape : (toString n).toList with
  | nil => exact absurd shape (toList_toString_ne_nil n)
  | cons c word =>
    obtain ⟨blank, decimal⟩ := isDigit_only
      (isDigit_of_mem_toString (n := n) (shape ▸ List.mem_cons_self))
    rw [shape] at found
    have starts : startsNumber c (word ++ rest) = true := by simp [startsNumber, isDigit, decimal]
    rw [List.cons_append] at found ⊢
    conv_lhs => unfold Lexicon.scan
    simp only [blank, starts, found, Bool.false_eq_true, if_false, if_true]
    rw [List.length_cons, Nat.add_sub_cancel, scan_skip, ← shape, String.ofList_toList]
    congr 1
    omega

theorem scan_name (lexicon : Lexicon) {name : String} (named : Expr.Identifier name)
    (parted : Parted rest) :
    lexicon.scan 0 position done groups (name.toList ++ rest) =
      lexicon.scan 0 (position + name.toList.length) (.name name position :: done) groups rest := by
  have found := takeName?_identifier named parted
  obtain ⟨c, word, shape, starts, _⟩ := identifier_chars named
  obtain ⟨blank, digit, point, letter⟩ := startsName_only starts
  have number : startsNumber c (word ++ rest) = false := by simp [startsNumber, digit, point]
  rw [shape, List.cons_append] at found ⊢
  conv_lhs => unfold Lexicon.scan
  simp only [blank, number, letter, found, Bool.false_eq_true, if_false, if_true]
  rw [List.length_cons, Nat.add_sub_cancel, scan_skip, ← shape, String.ofList_toList]
  congr 1
  omega

theorem scan_sign (sign : Sign) :
    Session.initial.lexicon.scan 0 position done groups (sign.char :: rest) =
      Session.initial.lexicon.scan 0 (position + 1)
        (.operator (String.singleton sign.char) position :: done) groups rest := by
  have found := symbolAt?_sign sign rest
  have others : isBlank sign.char = false ∧ startsNumber sign.char rest = false ∧
      (isLetter sign.char || sign.char == '_') = false ∧ (sign.char == ',') = false ∧
      Session.initial.lexicon.brackets.lookup (String.singleton sign.char) = none ∧
      Session.initial.lexicon.brackets.any (·.2 == String.singleton sign.char) = false := by
    cases sign <;> exact ⟨by decide, by simp [startsNumber, Sign.char]; decide, by decide,
      by decide, by decide, by decide⟩
  obtain ⟨blank, number, letter, comma, opens, closes⟩ := others
  conv_lhs => unfold Lexicon.scan
  simp only [blank, number, letter, comma, opens, closes, found, Bool.false_eq_true, if_false,
    String.length_singleton]

/-- The tokens of a phrase are what its characters are cut into. -/
theorem scan_phrase (phrase : Phrase) (spelled : phrase.Spelled) (parted : Parted rest) :
    Session.initial.lexicon.scan 0 position done groups (phrase.chars ++ rest) =
      Session.initial.lexicon.scan 0 (position + phrase.chars.length)
        ((phrase.tokens position).reverse ++ done) groups rest := by
  induction phrase generalizing position done groups rest with
  | number n => exact scan_number _ n parted
  | name text => exact scan_name _ spelled parted
  | negative a ih =>
    have minus : Session.initial.lexicon.scan 0 position done groups ('-' :: (a.chars ++ rest)) = _ :=
      scan_sign .minus
    rw [Phrase.chars, List.cons_append, minus, ih spelled parted]
    simp only [Phrase.tokens, List.reverse_cons, List.append_assoc, List.singleton_append,
      List.length_cons]
    congr 1
    omega
  | binary sign a b ihA ihB =>
    rw [Phrase.chars, List.append_assoc, List.cons_append,
      ihA spelled.1 (Parted.cons (closesWord_sign sign)), scan_sign, ihB spelled.2 parted]
    simp only [Phrase.tokens, List.reverse_append, List.reverse_cons, List.append_assoc,
      List.singleton_append, List.length_append, List.length_cons]
    congr 1
    omega
  | group a ih =>
    rw [Phrase.chars, List.cons_append, List.cons_append, List.append_assoc]
    conv_lhs => unfold Lexicon.scan
    change Session.initial.lexicon.scan 0 (position + 1) [] (⟨"(", position, ")", done⟩ :: groups)
      (a.chars ++ ')' :: rest) = _
    rw [ih spelled (Parted.cons (c := ')') rfl)]
    conv_lhs => unfold Lexicon.scan
    simp only [Phrase.tokens, List.append_nil, List.length_append, List.length_cons, List.length_nil]
    change Session.initial.lexicon.scan 0 (position + 1 + a.chars.length + 1)
      (.group "(" position (a.tokens (position + 1)).reverse.reverse :: done) groups rest = _
    rw [List.reverse_reverse]
    congr 1
    omega

end Scan

/-- The characters of a phrase are cut into its tokens. -/
theorem tokenize_phrase (phrase : Phrase) (spelled : phrase.Spelled) {text : String}
    (written : text.toList = phrase.chars) :
    Session.initial.lexicon.tokenize text = .ok (phrase.tokens 0) := by
  rw [Lexicon.tokenize, written, ← List.append_nil phrase.chars, scan_phrase phrase spelled Parted.nil,
    Lexicon.scan]
  simp

end ExactAlgebra.Reader
