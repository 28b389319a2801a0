import ExactAlgebra.Proofs.Scanning
import Mathlib

/-! Brackets. A text that can be cut into tokens once its brackets are taken out is refused for its brackets
exactly when they are not nested; where it is cut, nothing but blanks is lost. -/
namespace ExactAlgebra.Reader
open Text

def closerOf? : Char → Option Char
  | '(' => some ')'
  | '[' => some ']'
  | _ => none

/-- A sequence of brackets in which each opening one is closed by one of its kind. -/
inductive Nested : List Char → Prop
  | nil : Nested []
  | group {opening closing : Char} {s t : List Char} (pair : closerOf? opening = some closing) (inside : Nested s)
    (after : Nested t) : Nested (opening :: s ++ closing :: t)

/-- A sequence of brackets that first closes the open ones, from the innermost outwards. -/
def Closes : List Char → List Char → Prop
  | [], s => Nested s
  | closer :: stack, s => ∃ inside after, s = inside ++ closer :: after ∧ Nested inside ∧ Closes stack after

def IsCloser (c : Char) : Prop := c = ')' ∨ c = ']'

variable {c d opening closing : Char} {s t stack : List Char}

theorem closerOf?_of_isCloser (closer : IsCloser c) : closerOf? c = none := by
  rcases closer with rfl | rfl <;> rfl

theorem isCloser_of_pair (pair : closerOf? opening = some closing) : IsCloser closing := by
  unfold closerOf? at pair
  split at pair
  · exact .inl (Option.some.inj pair).symm
  · exact .inr (Option.some.inj pair).symm
  · cases pair

namespace Nested

theorem append (first : Nested s) (second : Nested t) : Nested (s ++ t) := by
  induction first with
  | nil => exact second
  | group pair inside _ _ ih =>
    rw [List.append_assoc]
    exact .group pair inside ih

theorem closes (nested : Nested s) (closes : Closes stack t) : Closes stack (s ++ t) := by
  cases stack with
  | nil => exact nested.append closes
  | cons closer stack =>
    obtain ⟨inside, after, rfl, first, others⟩ := closes
    exact ⟨s ++ inside, after, (List.append_assoc ..).symm, nested.append first, others⟩

/-- The first bracket is an opening one, and it is closed. -/
theorem of_cons (nested : Nested (c :: s)) : ∃ closing inside after, closerOf? c = some closing ∧
    s = inside ++ closing :: after ∧ Nested inside ∧ Nested after := by
  generalize whole : c :: s = u at nested
  cases nested with
  | nil => cases whole
  | @group _ closing inside after pair first others =>
    cases whole
    exact ⟨closing, inside, after, pair, rfl, first, others⟩

end Nested

theorem closes_nil : Closes stack [] ↔ stack = [] := by
  cases stack with
  | nil => exact iff_of_true .nil rfl
  | cons closer stack => exact iff_of_false (fun ⟨inside, after, same, _⟩ => by simp at same) (List.cons_ne_nil _ _)

/-- An opening bracket waits for its closing one. -/
theorem closes_opening (pair : closerOf? opening = some closing) (closers : ∀ d ∈ stack, IsCloser d) :
    Closes stack (opening :: s) ↔ Closes (closing :: stack) s := by
  constructor
  · intro closes
    cases stack with
    | nil =>
      obtain ⟨other, inside, after, same, rfl, first, others⟩ := Nested.of_cons closes
      cases pair.symm.trans same
      exact ⟨inside, after, rfl, first, others⟩
    | cons closer stack =>
      obtain ⟨before, rest, split, nested, others⟩ := closes
      cases before with
      | nil =>
        cases split
        cases pair.symm.trans (closerOf?_of_isCloser (closers opening List.mem_cons_self))
      | cons c before =>
        cases split
        obtain ⟨other, inside, after, same, rfl, first, later⟩ := nested.of_cons
        cases pair.symm.trans same
        exact ⟨inside, after ++ closer :: rest, by simp, first, after, rest, rfl, later, others⟩
  · rintro ⟨inside, after, rfl, first, others⟩
    have group : Nested (opening :: inside ++ [closing]) := .group pair first .nil
    simpa using group.closes others

/-- A closing bracket closes the innermost open one, which is of its kind. -/
theorem closes_closing (closer : IsCloser c) :
    Closes stack (c :: s) ↔ ∃ others, stack = c :: others ∧ Closes others s := by
  have opens := closerOf?_of_isCloser closer
  constructor
  · intro closes
    cases stack with
    | nil =>
      obtain ⟨_, _, _, same, _⟩ := Nested.of_cons closes
      cases opens.symm.trans same
    | cons d stack =>
      obtain ⟨before, rest, split, nested, others⟩ := closes
      cases before with
      | nil =>
        cases split
        exact ⟨stack, rfl, others⟩
      | cons e before =>
        cases split
        obtain ⟨_, _, _, same, _⟩ := nested.of_cons
        cases opens.symm.trans same
  · rintro ⟨others, rfl, closes⟩
    exact ⟨[], s, rfl, .nil, closes⟩

def blankOut (c : Char) : Char := if isBracket c then ' ' else c

theorem blankOut_of_bracket (bracket : isBracket c = true) : blankOut c = ' ' := if_pos bracket

theorem blankOut_of_plain (plain : isBracket c = false) : blankOut c = c := if_neg (by simp [plain])

theorem isDigit_blankOut (c : Char) : isDigit (blankOut c) = isDigit c := by
  cases bracket : isBracket c with
  | false => rw [blankOut_of_plain bracket]
  | true => rcases isBracket_eq bracket with rfl | rfl | rfl | rfl <;> decide

/-- A character that is no bracket stays, and no bracket becomes one that is no blank. -/
theorem blankOut_eq_iff (plain : isBracket d = false) (visible : d ≠ ' ') : blankOut c = d ↔ c = d := by
  cases bracket : isBracket c with
  | false => rw [blankOut_of_plain bracket]
  | true =>
    rw [blankOut_of_bracket bracket]
    refine iff_of_false visible.symm ?_
    rintro rfl
    cases plain.symm.trans bracket

/-- A run of characters that are neither blanks nor brackets is not touched. -/
theorem takeWhile_blankOut {inside : Char → Bool} (word : ∀ c, inside c = true → isWordChar c = true)
    (s : List Char) : (s.map blankOut).takeWhile inside = s.takeWhile inside ∧
      (s.map blankOut).dropWhile inside = (s.dropWhile inside).map blankOut := by
  induction s with
  | nil => exact ⟨rfl, rfl⟩
  | cons c s ih =>
    rw [List.map_cons]
    cases bracket : isBracket c with
    | false =>
      rw [blankOut_of_plain bracket]
      cases held : inside c with
      | false => simp [held, blankOut_of_plain bracket]
      | true => simp [held, ih]
    | true =>
      have outside : inside c = false := by
        by_contra held
        simpa [isWordChar, bracket] using word c (by simpa using held)
      have blank : inside ' ' = false := by
        by_contra held
        exact absurd (word ' ' (by simpa using held)) (by decide)
      simp [blankOut_of_bracket bracket, outside, blank]

theorem takeDecimals_blankOut (s : List Char) : (s.map blankOut).takeWhile isDecimal = s.takeWhile isDecimal ∧
    (s.map blankOut).dropWhile isDecimal = (s.dropWhile isDecimal).map blankOut :=
  takeWhile_blankOut (fun _ decimal => isWordChar_of_isNumeral (isNumeral_of_isDecimal decimal)) s

theorem takeSign_blankOut (s : List Char) : Rational.takeSign (s.map blankOut) =
    ((Rational.takeSign s).1, (Rational.takeSign s).2.map blankOut) := by
  cases s with
  | nil => rfl
  | cons c s =>
    cases bracket : isBracket c with
    | true => rcases isBracket_eq bracket with rfl | rfl | rfl | rfl <;> rfl
    | false =>
      rw [List.map_cons, blankOut_of_plain bracket]
      by_cases plus : c = '+'
      · subst plus
        rfl
      by_cases minus : c = '-'
      · subst minus
        rfl
      · simp [Rational.takeSign, plus, minus, blankOut_of_plain bracket]

theorem takeExponent?_blankOut (s : List Char) : Rational.takeExponent? (s.map blankOut) =
    (Rational.takeExponent? s).map (Prod.map id (List.map blankOut)) := by
  cases s with
  | nil => rfl
  | cons c s =>
    have mark : (blankOut c == 'e' || blankOut c == 'E') = (c == 'e' || c == 'E') := by
      rw [Bool.eq_iff_iff]
      simp [blankOut_eq_iff (d := 'e') rfl (by decide), blankOut_eq_iff (d := 'E') rfl (by decide)]
    obtain ⟨taken, dropped⟩ := takeDecimals_blankOut (Rational.takeSign s).2
    rw [List.map_cons, Rational.takeExponent?, Rational.takeExponent?, mark, takeSign_blankOut]
    dsimp only
    rw [taken, dropped]
    split
    · split <;> rfl
    · rfl

theorem withExponent_blankOut (mantissa s : List Char) : withExponent mantissa (s.map blankOut) =
    Prod.map id (List.map blankOut) (withExponent mantissa s) := by
  unfold withExponent
  rw [takeExponent?_blankOut]
  cases found : Rational.takeExponent? s with
  | none => rfl
  | some parts =>
    obtain ⟨⟨sign, digits⟩, rest⟩ := parts
    obtain ⟨mark, power, rfl, -⟩ := takeExponent?_eq_some_iff.mp found
    have plain : isBracket mark = false := by
      rcases power.marks with rfl | rfl <;> decide
    simp [blankOut_of_plain plain]

/-- A point is left where it stands, and nothing becomes one. -/
theorem point_blankOut (s : List Char) : (∃ rest, s = '.' :: rest ∧ s.map blankOut = '.' :: rest.map blankOut) ∨
    (∀ rest, s ≠ '.' :: rest) ∧ ∀ rest, s.map blankOut ≠ '.' :: rest := by
  cases s with
  | nil => exact .inr ⟨nofun, nofun⟩
  | cons c s =>
    have point : blankOut c = '.' ↔ c = '.' := blankOut_eq_iff rfl (by decide)
    by_cases same : c = '.'
    · subst same
      exact .inl ⟨s, rfl, rfl⟩
    · exact .inr ⟨fun rest split => same (List.cons.inj split).1,
        fun rest split => same (point.mp (List.cons.inj split).1)⟩

theorem takeNumber?_blankOut (s : List Char) : takeNumber? (s.map blankOut) =
    (takeNumber? s).map (Prod.map id (List.map blankOut)) := by
  obtain ⟨taken, dropped⟩ := takeDecimals_blankOut s
  unfold takeNumber?
  rw [taken, dropped]
  dsimp only
  split
  · rcases point_blankOut s with ⟨rest, rfl, blanked⟩ | ⟨other, others⟩
    · obtain ⟨taken, dropped⟩ := takeDecimals_blankOut rest
      rw [blanked]
      simp only [taken, dropped, withExponent_blankOut]
      split <;> rfl
    · split
      next rest split => exact absurd split (others rest)
      next => rfl
  · rcases point_blankOut (s.dropWhile isDecimal) with ⟨rest, split, blanked⟩ | ⟨other, others⟩
    · obtain ⟨taken, dropped⟩ := takeDecimals_blankOut rest
      rw [blanked, split]
      simp only [taken, dropped, withExponent_blankOut]
      rfl
    · split
      next rest split => exact absurd split (others rest)
      next =>
        rw [withExponent_blankOut]
        rfl

theorem takeName?_blankOut (s : List Char) : takeName? (s.map blankOut) =
    (takeName? s).map (Prod.map id (List.map blankOut)) := by
  cases s with
  | nil => rfl
  | cons c s =>
    obtain ⟨taken, dropped⟩ := takeWhile_blankOut (fun _ => isWordChar_of_continuesName) s
    rw [List.map_cons, takeName?, takeName?, taken, dropped]
    cases bracket : isBracket c with
    | true => rcases isBracket_eq bracket with rfl | rfl | rfl | rfl <;> rfl
    | false =>
      rw [blankOut_of_plain bracket]
      split <;> rfl

/-- With blanks for brackets, the fronts are the same but for the brackets. -/
theorem front_blankOut (position : ℕ) (c : Char) (cs : List Char) :
    Session.initial.lexicon.front position (blankOut c) (cs.map blankOut) =
      if isBracket c then .blank else Session.initial.lexicon.front position c cs := by
  split
  next bracket =>
    rw [blankOut_of_bracket bracket]
    rfl
  next other =>
    have plain : isBracket c = false := by simpa using other
    have fixed := blankOut_of_plain plain
    have number : takeNumber? (c :: cs.map blankOut) =
        (takeNumber? (c :: cs)).map (Prod.map id (List.map blankOut)) := by
      rw [← takeNumber?_blankOut, List.map_cons, fixed]
    have name : takeName? (c :: cs.map blankOut) = (takeName? (c :: cs)).map (Prod.map id (List.map blankOut)) := by
      rw [← takeName?_blankOut, List.map_cons, fixed]
    have starts : startsNumber c (cs.map blankOut) = startsNumber c cs := by
      unfold startsNumber
      cases cs with
      | nil => rfl
      | cons d cs => simp [isDigit_blankOut]
    rw [fixed]
    unfold Lexicon.front
    rw [number, name, starts, symbolAt?_initial, symbolAt?_initial]
    cases takeNumber? (c :: cs) <;> cases takeName? (c :: cs) <;> rfl

/-- A bracket opens a group or closes one. -/
theorem front_bracket (bracket : isBracket c = true) (position : ℕ) (cs : List Char) :
    Session.initial.lexicon.front position c cs =
      match closerOf? c with
      | some closer => .opening (String.singleton closer)
      | none => .closing := by
  unfold Lexicon.front
  rw [lookup_initial, closes_initial]
  rcases isBracket_eq bracket with rfl | rfl | rfl | rfl <;> rfl

theorem isCloser_of_bracket (bracket : isBracket c = true) (opens : closerOf? c = none) : IsCloser c := by
  rcases isBracket_eq bracket with rfl | rfl | rfl | rfl
  · cases opens
  · exact .inl rfl
  · cases opens
  · exact .inr rfl

/-- What becomes of a text that is cut once blanks stand for its brackets: its own brackets decide. -/
def Decided (nested : Prop) (answer : Except Fault (List Token)) : Prop :=
  (nested ∧ ∃ tokens, answer = .ok tokens) ∨ (¬ nested ∧ ∃ fault, answer = .error fault ∧ fault.kind = .parity)

theorem Decided.congr {nested same : Prop} {answer : Except Fault (List Token)} (decided : Decided nested answer)
    (iff : same ↔ nested) : Decided same answer := by
  rwa [propext iff]

/-- There are no brackets in a word. -/
theorem filter_of_isWord {s word rest : List Char} (isWord : IsWord isWordChar s word rest) :
    rest.filter isBracket = s.filter isBracket := by
  have none : word.filter isBracket = [] := List.filter_eq_nil_iff.mpr fun c member => by
    simpa using (Bool.and_eq_true_iff.mp (isWord.each c member)).2
  rw [isWord.split, List.filter_append, none, List.nil_append]

/-- A closing bracket is refused unless it closes the innermost open group. -/
theorem decided_closing {position : ℕ} {groups : List OpenGroup}
    {close : OpenGroup → List OpenGroup → Except Fault (List Token)}
    (open_ : groups.map (·.closer) = stack.map String.singleton) (closer : IsCloser c)
    (later : ∀ group others inner, stack = c :: inner → others.map (·.closer) = inner.map String.singleton →
      Decided (Closes inner s) (close group others)) :
    Decided (Closes stack (c :: s)) (match groups with
      | [] => .error (.unmatchedBracket (String.singleton c) position)
      | group :: groups =>
        if group.closer == String.singleton c then close group groups
        else .error (.mismatchedBracket group.closer (String.singleton c) position)) := by
  have closes : Closes stack (c :: s) ↔ _ := closes_closing closer
  cases groups with
  | nil =>
    obtain rfl : stack = [] := by simpa using open_.symm
    exact .inr ⟨fun nested => by simpa using closes.mp nested, _, rfl, rfl⟩
  | cons group groups =>
    cases stack with
    | nil => cases open_
    | cons d inner =>
      obtain ⟨innermost, others⟩ : group.closer = String.singleton d ∧ _ := List.cons.inj open_
      dsimp only
      rw [innermost, singleton_beq]
      by_cases matched : d = c
      · subst matched
        rw [if_pos (beq_self_eq_true d)]
        exact (later group groups inner rfl others).congr (closes.trans (by simp))
      · rw [if_neg (by simpa using matched)]
        refine .inr ⟨fun nested => ?_, _, rfl, rfl⟩
        obtain ⟨_, same, _⟩ := closes.mp nested
        exact matched (List.cons.inj same).1

/-- The cutting goes as far as the brackets are nested in the open groups. -/
theorem decided_scan {skip position : ℕ} {done plain : List Token} {groups : List OpenGroup} {cs : List Char}
    (open_ : groups.map (·.closer) = stack.map String.singleton) (closers : ∀ d ∈ stack, IsCloser d)
    (cut : ∃ tokens, Session.initial.lexicon.scan skip position plain [] (cs.map blankOut) = .ok tokens) :
    Decided (Closes stack ((cs.drop skip).filter isBracket))
      (Session.initial.lexicon.scan skip position done groups cs) := by
  induction cs generalizing skip position done plain groups stack with
  | nil =>
    rw [List.drop_nil, List.filter_nil, Decided, closes_nil]
    cases groups with
    | nil =>
      obtain rfl : stack = [] := by simpa using open_.symm
      exact .inl ⟨rfl, done.reverse, by cases skip <;> rfl⟩
    | cons group groups =>
      refine .inr ⟨?_, .unclosedBracket group.bracket group.position, by cases skip <;> rfl, rfl⟩
      rintro rfl
      cases open_
  | cons c cs ih =>
    cases skip with
    | succ skip =>
      rw [List.map_cons, Lexicon.scan] at cut
      rw [Lexicon.scan]
      exact ih open_ closers cut
    | zero =>
      rw [List.map_cons, scan_cons, front_blankOut] at cut
      rw [scan_cons, List.drop_zero]
      cases bracket : isBracket c with
      | false =>
        rw [bracket, if_neg Bool.false_ne_true] at cut
        cases front : Session.initial.lexicon.front position c cs with
        | blank =>
          rw [front] at cut
          rw [List.filter_cons_of_neg (by simp [bracket])]
          exact ih open_ closers cut
        | word token =>
          rw [front] at cut
          obtain ⟨-, -, rest, word⟩ := isWordAt_of_front front
          rw [← filter_of_isWord word, ← word.drop_tail]
          exact ih open_ closers cut
        | opening closer =>
          rcases opening_of_front front with ⟨rfl, -⟩ | ⟨rfl, -⟩ <;> cases bracket
        | closing => rcases closing_of_front front with rfl | rfl <;> cases bracket
        | refused fault =>
          rw [front] at cut
          obtain ⟨tokens, returned⟩ := cut
          cases returned
      | true =>
        rw [bracket, if_pos rfl] at cut
        rw [front_bracket bracket, List.filter_cons_of_pos bracket]
        cases opens : closerOf? c with
        | some closing =>
          refine (ih ?_ ?_ cut).congr (closes_opening opens closers)
          · rw [List.map_cons, List.map_cons, open_]
          · exact List.forall_mem_cons.mpr ⟨isCloser_of_pair opens, closers⟩
        | none =>
          refine decided_closing open_ (isCloser_of_bracket bracket opens) fun group others inner same matched => ?_
          exact ih matched (List.forall_mem_cons.mp (same ▸ closers)).2 cut

/-- A text with blanks for its brackets. -/
def withoutBrackets (text : String) : String := String.ofList (text.toList.map blankOut)

theorem decided_tokenize {text : String}
    (cut : ∃ tokens, Session.initial.lexicon.tokenize (withoutBrackets text) = .ok tokens) :
    Decided (Nested (text.toList.filter isBracket)) (Session.initial.lexicon.tokenize text) := by
  obtain ⟨tokens, returned⟩ := cut
  rw [Lexicon.tokenize, withoutBrackets, String.toList_ofList] at returned
  have none : ∀ d ∈ ([] : List Char), IsCloser d := by simp
  exact decided_scan rfl none ⟨tokens, returned⟩

/-- Cutting a text loses nothing but blanks: the tokens, flattened, give the text back, each stands at its
recorded position, and the positions rise. A text that is cut once blanks stand for its brackets is refused
for its brackets exactly when they are not nested. -/
theorem tokenize_lossless_and_refuses_unnested (text : String) :
    (∀ tokens, Session.initial.lexicon.tokenize text = .ok tokens →
      let pieces := Session.initial.lexicon.piecesAll tokens
      pieces.flatMap (·.text.toList) = text.toList.filter (!isBlank ·) ∧
        (∀ piece ∈ pieces, ∀ p ∈ piece.position?, piece.text.toList <+: text.toList.drop p) ∧
        (pieces.filterMap (·.position?)).Pairwise (· < ·)) ∧
    ((∃ tokens, Session.initial.lexicon.tokenize (withoutBrackets text) = .ok tokens) →
      ((∃ fault, Session.initial.lexicon.tokenize text = .error fault ∧ fault.kind = .parity) ↔
        ¬ Nested (text.toList.filter isBracket))) := by
  constructor
  · intro tokens returned
    have spells := spells_tokenize returned
    exact ⟨spells.text_eq, fun piece member p recorded => (spells.prefix_drop piece member p recorded).2,
      spells.rising⟩
  · intro cut
    rcases decided_tokenize cut with ⟨nested, tokens, returned⟩ | ⟨unnested, refused⟩
    · refine iff_of_false ?_ (not_not_intro nested)
      rintro ⟨fault, refused, -⟩
      cases returned.symm.trans refused
    · exact iff_of_true refused unnested

/-- The argument of a call is read back, and brackets that cross are refused. -/
theorem tokenize_call_and_crossing :
    (∃ tokens, Session.initial.lexicon.tokenize "sin( 2x)" = .ok tokens ∧
      (Session.initial.lexicon.piecesAll tokens).flatMap (·.text.toList) = "sin(2x)".toList) ∧
    ∃ fault, Session.initial.lexicon.tokenize "(x[)]" = .error fault ∧ fault.kind = .parity := by
  have read : ∃ tokens, Session.initial.lexicon.tokenize "sin( 2x)" = .ok tokens := ⟨_, rfl⟩
  have cut : ∃ tokens, Session.initial.lexicon.tokenize (withoutBrackets "(x[)]") = .ok tokens := ⟨_, rfl⟩
  obtain ⟨tokens, returned⟩ := read
  refine ⟨⟨tokens, returned, ((tokenize_lossless_and_refuses_unnested _).1 tokens returned).1⟩, ?_⟩
  refine ((tokenize_lossless_and_refuses_unnested _).2 cut).mpr fun nested => ?_
  have none : ∀ d ∈ ([] : List Char), IsCloser d := by simp
  have round : Closes [')'] ['[', ')', ']'] := (closes_opening rfl none).mp nested
  have square : Closes [']', ')'] [')', ']'] := (closes_opening rfl (by simp [IsCloser])).mp round
  obtain ⟨_, same, _⟩ := (closes_closing (.inl rfl)).mp square
  cases same

end ExactAlgebra.Reader
