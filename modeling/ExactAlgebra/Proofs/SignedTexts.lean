import ExactAlgebra.Proofs.Juxtaposition
import ExactAlgebra.Proofs.Scanning
import Mathlib

/-! Multiplication signs in texts. A text with signs between a number or a closing parenthesis and the operand
behind it is cut into the same tokens as the text without them, but for these signs; so both are read to the same
program. -/
namespace ExactAlgebra.Reader
open Text Rational

/-- Behind a number, the one text can stand in for the other. -/
structure EndsLike (rest rest' : List Char) : Prop where
  head : rest'.head? = rest.head? ∨ rest'.head? = some '*'
  powerless : takeExponent? rest = none → takeExponent? rest' = none

theorem EndsLike.startsDecimal {rest rest' : List Char} (like : EndsLike rest rest')
    (ends : startsDecimal rest = false) : Reader.startsDecimal rest' = false := by
  rcases like.head with same | star
  · rw [Reader.startsDecimal, same]
    exact ends
  · rw [Reader.startsDecimal, star]
    rfl

theorem EndsLike.takeNumber? {word rest rest' : List Char} (like : EndsLike rest rest')
    (taken : takeNumber? (word ++ rest) = some (word, rest)) :
    Reader.takeNumber? (word ++ rest') = some (word, rest') := by
  rw [takeNumber?_iff] at taken ⊢
  obtain ⟨whole, point, ⟨mantissa, none, rfl, -⟩ | ⟨mark, sign, digits, mantissa, power, ends, rfl, -⟩⟩ := taken
  · refine ⟨whole, point, .inl ⟨⟨mantissa.wholes, mantissa.points, mantissa.filled, ?_, ?_⟩, ?_, rfl, rfl⟩⟩
    · exact like.startsDecimal mantissa.ends
    · intro plain
      rcases like.head with same | star
      · exact same ▸ mantissa.pointless plain
      · simp [star]
    · exact like.powerless none
  · refine ⟨whole, point, .inr ⟨mark, sign, digits, ⟨mantissa.wholes, mantissa.points, mantissa.filled, ?_, ?_⟩, power,
      like.startsDecimal ends, rfl, rfl⟩⟩
    · exact mantissa.ends
    · exact mantissa.pointless

/-- The second text is the first with multiplication signs before some operands that stand behind a number or a
closing parenthesis, blanks between them left out. `after` says that a number or a closing parenthesis stands
right before the texts. Behind a stray point, where both texts are refused, they may differ. -/
inductive Signed : Bool → List Char → List Char → Prop
  | nil {after : Bool} : Signed after [] []
  | number {after : Bool} {word rest rest' : List Char} (taken : takeNumber? (word ++ rest) = some (word, rest))
    (later : Signed true rest rest') : Signed after (word ++ rest) (word ++ rest')
  | name {after : Bool} {word rest rest' : List Char} (taken : takeName? (word ++ rest) = some (word, rest))
    (later : Signed false rest rest') : Signed after (word ++ rest) (word ++ rest')
  | point {after : Bool} {rest rest' : List Char} (ends : startsDecimal rest = false)
    (ends' : startsDecimal rest' = false) : Signed after ('.' :: rest) ('.' :: rest')
  | char {after : Bool} {c : Char} {rest rest' : List Char} (noName : startsName c = false)
    (noDigit : isDecimal c = false) (noPoint : c ≠ '.') (later : Signed (c == ')') rest rest') :
    Signed after (c :: rest) (c :: rest')
  | sign {blanks : List Char} {c : Char} {rest rest' : List Char} (blank : ∀ b ∈ blanks, isBlank b = true)
    (operand : startsOperand c = true) (later : Signed false (c :: rest) (c :: rest')) :
    Signed true (blanks ++ c :: rest) ('*' :: c :: rest')

namespace Signed

variable {after : Bool} {s t : List Char}

/-- Both texts begin with the same character, or the second with a multiplication sign behind a factor. -/
theorem head? (signed : Signed after s t) : t.head? = s.head? ∨ after = true ∧ t.head? = some '*' := by
  cases signed with
  | nil => exact .inl rfl
  | number taken later =>
    obtain ⟨c, tail, rfl, -⟩ := head_of_takeNumber? taken
    exact .inl rfl
  | name taken later =>
    obtain ⟨c, tail, rfl, -⟩ := head_of_takeName? taken
    exact .inl rfl
  | point => exact .inl rfl
  | char => exact .inl rfl
  | sign => exact .inr ⟨rfl, rfl⟩

theorem head?_eq (signed : Signed false s t) : t.head? = s.head? :=
  signed.head?.resolve_right (by simp)

theorem startsDecimal_eq (signed : Signed false s t) : startsDecimal t = startsDecimal s := by
  rw [startsDecimal, startsDecimal, signed.head?_eq]

/-- Whether digits stand at the front, behind a sign perhaps, is the same in both texts. -/
theorem startsDecimal_takeSign (signed : Signed false s t) :
    startsDecimal (takeSign t).2 = startsDecimal (takeSign s).2 := by
  have same := signed.startsDecimal_eq
  cases signed with
  | nil => rfl
  | number taken later =>
    obtain ⟨c, tail, rfl, front, -⟩ := head_of_takeNumber? taken
    have word : isDecimal c = true ∨ c = '.' ∨ continuesName c = true := front.imp_right .inl
    rw [List.cons_append, takeSign_word word, List.cons_append, takeSign_word word]
    exact same
  | name taken later =>
    obtain ⟨c, tail, rfl, starts, -⟩ := head_of_takeName? taken
    have continues := startsName_continues starts
    rw [List.cons_append, takeSign_word (.inr (.inr continues)), List.cons_append,
      takeSign_word (.inr (.inr continues))]
    exact same
  | point => exact same
  | @char _ c rest rest' noName noDigit noPoint later =>
    by_cases plus : c = '+'
    · subst plus
      exact later.startsDecimal_eq
    by_cases minus : c = '-'
    · subst minus
      exact later.startsDecimal_eq
    rw [takeSign_of_ne plus minus, takeSign_of_ne plus minus]
    exact same

/-- Behind a number, the second text can stand in for the first. -/
theorem endsLike (signed : Signed after s t) : EndsLike s t where
  head := signed.head?.imp_right And.right
  powerless none := by
    have unmarked {c : Char} (other : startsName c = false) (s : List Char) : takeExponent? (c :: s) = Option.none := by
      refine (takeExponent?_eq_none_iff c s).mpr (Bool.and_eq_false_iff.mpr (.inl ?_))
      rw [Bool.or_eq_false_iff, beq_eq_false_iff_ne, beq_eq_false_iff_ne]
      constructor <;> rintro rfl <;> exact absurd other (by decide)
    cases signed with
    | nil => rfl
    | number taken later =>
      obtain ⟨c, tail, rfl, front, -⟩ := head_of_takeNumber? taken
      refine unmarked ?_ _
      by_contra starts
      obtain ⟨-, digit, point, -⟩ := startsName_only (by simpa using starts)
      rcases front with decimal | rfl
      · simp [isDigit, decimal] at digit
      · exact point rfl
    | @name _ word rest rest' taken later =>
      obtain ⟨c, tail, rfl, -, inside⟩ := head_of_takeName? taken
      rw [List.cons_append, takeExponent?_eq_none_iff] at none ⊢
      cases tail with
      | nil => rwa [List.nil_append, later.startsDecimal_takeSign]
      | cons d tail =>
        have continues := inside d List.mem_cons_self
        rw [List.cons_append, takeSign_word (.inr (.inr continues))] at none ⊢
        exact none
    | point => exact unmarked (by decide) _
    | char noName => exact unmarked noName _
    | sign => exact unmarked (by decide) _

/-- A multiplication sign before the operand that stands behind a factor, and behind blanks. -/
theorem sign_stripLeft {c : Char} {rest behind t : List Char} (stripped : stripLeft rest = c :: behind)
    (operand : startsOperand c = true) (later : Signed false (c :: behind) t) : Signed true rest ('*' :: t) := by
  obtain ⟨tail, rfl⟩ := List.head?_eq_some_iff.mp later.head?_eq
  rw [← blanks_append_stripLeft stripped]
  exact .sign (fun b => List.mem_takeWhile_imp) operand later

end Signed

/-- Texts are taken apart by what stands at their front, the cases of `Signed` but for the sign. -/
theorem front_induction {motive : List Char → Prop} (nil : motive [])
    (number : ∀ word rest, takeNumber? (word ++ rest) = some (word, rest) →
      (∀ t, t.length < (word ++ rest).length → motive t) → motive (word ++ rest))
    (name : ∀ word rest, takeName? (word ++ rest) = some (word, rest) →
      (∀ t, t.length < (word ++ rest).length → motive t) → motive (word ++ rest))
    (point : ∀ rest, startsDecimal rest = false → motive rest → motive ('.' :: rest))
    (char : ∀ c rest, startsName c = false → isDecimal c = false → c ≠ '.' →
      (∀ t, t.length ≤ rest.length → motive t) → motive (c :: rest))
    (s : List Char) : motive s := by
  induction length : s.length using Nat.strong_induction_on generalizing s with
  | _ n ih =>
    subst length
    have shorter (t : List Char) (less : t.length < s.length) : motive t := ih t.length less t rfl
    cases s with
    | nil => exact nil
    | cons c cs =>
      cases taken : takeNumber? (c :: cs) with
      | some found =>
        obtain ⟨word, rest⟩ := found
        have split := (isWord_of_takeNumber? taken).split
        rw [split] at taken shorter ⊢
        exact number word rest taken shorter
      | none =>
        obtain ⟨noDigit, noPoint⟩ := (takeNumber?_eq_none_iff c cs).mp taken
        cases named : takeName? (c :: cs) with
        | some found =>
          obtain ⟨word, rest⟩ := found
          have split := (isWord_of_takeName? named).split
          rw [split] at named shorter ⊢
          exact name word rest named shorter
        | none =>
          have noName : startsName c = false := by
            rw [takeName?] at named
            split at named
            · cases named
            next starts => simpa using starts
          by_cases stray : c = '.'
          · subst stray
            exact point cs (noPoint rfl) (shorter cs (Nat.lt_succ_self _))
          · exact char c cs noName noDigit stray fun t le => shorter t (Nat.lt_succ_of_le le)

/-- Whatever goes on alike behind the tokens read so far, both kept backwards, is alike as a whole. -/
def AlikeSoFar (after : Bool) (done done' : List Token) : Prop :=
  ∀ ts us, Spelled after ts us → Spelled false (done.reverse ++ ts) (done'.reverse ++ us)

/-- An operand may stand behind the tokens read so far. -/
def AwaitsOperand (done done' : List Token) : Prop :=
  ∀ t u, t.startsOperand = true → Alike t u → AlikeSoFar t.endsFactor (t :: done) (u :: done')

section AlikeSoFar

variable {after : Bool} {done done' : List Token}

theorem AlikeSoFar.nil : AlikeSoFar false [] [] := fun _ _ spelled => spelled

theorem AlikeSoFar.cons (alike : AlikeSoFar after done done') {t u : Token} (same : Alike t u) :
    AlikeSoFar t.endsFactor (t :: done) (u :: done') := by
  intro ts us later
  rw [List.reverse_cons, List.reverse_cons, List.append_assoc, List.append_assoc]
  exact alike _ _ (.cons same later)

theorem AlikeSoFar.awaits (alike : AlikeSoFar after done done') : AwaitsOperand done done' := fun _ _ _ => alike.cons

theorem AlikeSoFar.sign (alike : AlikeSoFar true done done') (position : ℕ) :
    AwaitsOperand done (.operator "*" position :: done') := by
  intro t u operand same ts us later
  rw [List.reverse_cons, List.reverse_cons, List.reverse_cons, List.append_assoc, List.append_assoc, List.append_assoc]
  exact alike _ _ (.sign operand same later)

theorem AlikeSoFar.anti {before : Bool} (le : before ≤ after) (alike : AlikeSoFar after done done') :
    AlikeSoFar before done done' := fun ts us spelled => alike ts us (spelled.mono le)

theorem AlikeSoFar.whole (alike : AlikeSoFar after done done') : Spelled false done.reverse done'.reverse := by
  simpa using alike [] [] .nil

end AlikeSoFar

/-- Groups of one bracket that are open behind tokens that are alike. -/
structure OpenGroup.Alike (group group' : OpenGroup) : Prop where
  bracket : group.bracket = group'.bracket
  closer : group.closer = group'.closer
  before : AwaitsOperand group.before group'.before

/-- What stands at the front of two texts that begin with the same character, which begins no word. -/
inductive Front.Alike (c : Char) : Front → Front → Prop
  | blank (plain : c ≠ '(' ∧ c ≠ ')') : Front.Alike c .blank .blank
  | word {t u : Token} (plain : c ≠ '(' ∧ c ≠ ')') (same : Reader.Alike t u)
    (short : t.text.toList.length = 1) (short' : u.text.toList.length = 1) : Front.Alike c (.word t) (.word u)
  | opening {closer : String} (plain : c ≠ ')') : Front.Alike c (.opening closer) (.opening closer)
  | closing (plain : c ≠ '(') : Front.Alike c .closing .closing
  | refused {fault fault' : Fault} : Front.Alike c (.refused fault) (.refused fault')

theorem front_alike {c : Char} (noName : startsName c = false) (noDigit : isDecimal c = false) (noPoint : c ≠ '.')
    (position position' : ℕ) (cs cs' : List Char) :
    Front.Alike c (Session.initial.lexicon.front position c cs) (Session.initial.lexicon.front position' c cs') := by
  have number (cs) : takeNumber? (c :: cs) = none := takeNumber?_none noDigit noPoint
  have name (cs) : takeName? (c :: cs) = none := by rw [takeName?, if_neg (by simp [noName])]
  have starts (cs) : startsNumber c cs = isDigit c := by simp [startsNumber, noPoint]
  unfold Lexicon.front
  simp only [number, name, starts, lookup_initial, closes_initial, symbolAt?_initial]
  by_cases blank : isBlank c = true
  · simp only [blank, if_true]
    refine .blank ⟨?_, ?_⟩ <;> rintro rfl <;> exact absurd blank (by decide)
  by_cases digit : isDigit c = true
  · simp only [blank, digit, if_true]
    exact .refused
  by_cases letter : (isLetter c || c == '_') = true
  · simp only [blank, digit, letter, if_true]
    exact .refused
  by_cases comma : c = ','
  · subst comma
    exact .word (by decide) .comma (by simp [Token.text]) (by simp [Token.text])
  by_cases round : c = '('
  · subst round
    exact .opening (by decide)
  by_cases square : c = '['
  · subst square
    exact .opening (by decide)
  by_cases closes : (c == ')' || c == ']') = true
  · simp only [blank, digit, letter, comma, round, square, closes, beq_iff_eq, Bool.false_eq_true, if_true, if_false]
    exact .closing round
  simp only [blank, digit, letter, comma, round, square, closes, beq_iff_eq, Bool.false_eq_true, if_false]
  split
  next symbol known =>
    split at known
    · cases known
      refine .word ⟨round, ?_⟩ .operator (by simp [Token.text]) (by simp [Token.text])
      rintro rfl
      exact closes rfl
    · cases known
  next => exact .refused

section Scan

variable {after : Bool} {s t word rest : List Char} {position position' : ℕ} {done done' : List Token}
  {groups groups' : List OpenGroup}

/-- Behind a name, the second text can stand in for the first. -/
theorem Signed.takeName? (later : Signed false rest t) (taken : Text.takeName? (word ++ rest) = some (word, rest)) :
    Text.takeName? (word ++ t) = some (word, t) := by
  obtain ⟨c, tail, rfl, starts, inside⟩ := head_of_takeName? taken
  rw [List.cons_append, Text.takeName?, if_pos starts] at taken ⊢
  have behind : (tail ++ rest).dropWhile continuesName = rest := (Prod.mk.inj (Option.some.inj taken)).2
  have ends : ∀ d ∈ t.head?, continuesName d = false := by
    intro d first
    have stops := List.head?_dropWhile_not continuesName (tail ++ rest)
    rw [behind, ← later.head?_eq, Option.mem_def.mp first] at stops
    simpa using stops
  obtain ⟨tookTail, left⟩ := takeWhile_append_parted t inside ends
  rw [tookTail, left]

/-- Signed texts are cut into tokens that are spelled alike, or both are refused. Right behind a sign that was
written, the tokens read so far wait for an operand. -/
theorem scan_signed (signed : Signed after s t) (awaits : AwaitsOperand done done')
    (ends : AlikeSoFar after done done' ∨ after = false ∧ ∃ c ∈ s.head?, startsOperand c = true)
    (opened : List.Forall₂ OpenGroup.Alike groups groups') :
    Option.Rel (Spelled false) (Session.initial.lexicon.scan 0 position done groups s).toOption
      (Session.initial.lexicon.scan 0 position' done' groups' t).toOption := by
  induction signed generalizing position position' done done' groups groups' with
  | nil =>
    have alike := ends.resolve_right (by simp)
    cases opened with
    | nil => exact .some alike.whole
    | cons => exact .none
  | @number _ word rest rest' taken later ih =>
    rw [scan_takeNumber? _ taken, scan_takeNumber? _ (later.endsLike.takeNumber? taken)]
    have alike := awaits (.number (String.ofList word) position) (.number (String.ofList word) position') rfl .number
    exact ih alike.awaits (.inl alike) opened
  | @name _ word rest rest' taken later ih =>
    rw [scan_takeName? _ taken, scan_takeName? _ (later.takeName? taken)]
    have alike := awaits (.name (String.ofList word) position) (.name (String.ofList word) position') rfl .name
    exact ih alike.awaits (.inl alike) opened
  | point none none' =>
    obtain ⟨fault, front⟩ := front_point none position
    obtain ⟨fault', front'⟩ := front_point none' position'
    rw [scan_cons, scan_cons, front, front']
    exact .none
  | @char after c rest rest' noName noDigit noPoint later ih =>
    have alike (other : c ≠ '(') : AlikeSoFar after done done' := by
      refine ends.resolve_right ?_
      simp [startsOperand, noName, noDigit, noPoint, other]
    have below (other : c ≠ ')') (b : Bool) : (c == ')') ≤ b := by
      rw [beq_false_of_ne other]
      exact Bool.false_le b
    have front := front_alike noName noDigit noPoint position position' rest rest'
    rw [scan_cons, scan_cons]
    generalize Session.initial.lexicon.front position c rest = left at front ⊢
    generalize Session.initial.lexicon.front position' c rest' = right at front ⊢
    cases front with
    | blank plain =>
      have goesOn : AlikeSoFar (c == ')') done done' := (alike plain.1).anti (below plain.2 _)
      exact ih awaits (.inl goesOn) opened
    | @word t u plain same short short' =>
      have goesOn : AlikeSoFar (c == ')') (t :: done) (u :: done') := ((alike plain.1).cons same).anti (below plain.2 _)
      dsimp only
      rw [short, short']
      exact ih goesOn.awaits (.inl goesOn) opened
    | opening plain =>
      have goesOn : AlikeSoFar (c == ')') [] [] := AlikeSoFar.nil.anti (below plain _)
      exact ih goesOn.awaits (.inl goesOn) (.cons ⟨rfl, rfl, awaits⟩ opened)
    | closing plain =>
      cases opened with
      | nil => exact .none
      | @cons group group' groups groups' same others =>
        dsimp only
        rw [← same.closer, ← same.bracket]
        split
        · have goesOn := same.before (.group group.bracket group.position done.reverse)
            (.group group.bracket group'.position done'.reverse) rfl (.group (alike plain).whole)
          exact ih goesOn.awaits (.inl (goesOn.anti (Bool.le_true _))) others
        · exact .none
    | refused => exact .none
  | @sign blanks c rest rest' blank operand later ih =>
    have alike := ends.resolve_right (by simp)
    have star : Session.initial.lexicon.scan 0 position' done' groups' ('*' :: c :: rest') =
        Session.initial.lexicon.scan 0 (position' + 1) (.operator "*" position' :: done') groups' (c :: rest') :=
      scan_sign .times
    rw [scan_blanks _ blank, star]
    exact ih (alike.sign position') (.inr ⟨rfl, c, rfl, operand⟩) opened

end Scan

/-- A text and its signed form are cut into tokens that are spelled alike, or both are refused. -/
theorem tokenize_signed {text signedText : String} (signed : Signed false text.toList signedText.toList) :
    Option.Rel (Spelled false) (Session.initial.tokenize text).toOption
      (Session.initial.tokenize signedText).toOption :=
  scan_signed signed AlikeSoFar.nil.awaits (.inl .nil) .nil

/-- The program that a text prepared already is read to, if it is one, without the positions it records. -/
def meaning? (text : String) : Option Program :=
  (Session.initial.tokenize text >>= Session.initial.grammar.program).toOption.map Program.unplaced

theorem meaning?_signed {text signedText : String} (signed : Signed false text.toList signedText.toList) :
    meaning? text = meaning? signedText := by
  have related := tokenize_signed signed
  unfold meaning?
  cases left : Session.initial.tokenize text with
  | ok tokens =>
    cases right : Session.initial.tokenize signedText with
    | ok tokens' =>
      rw [left, right] at related
      cases related with
      | some spelled => exact program_spelled rfl spelled
    | error =>
      rw [left, right] at related
      cases related
  | error =>
    cases right : Session.initial.tokenize signedText with
    | ok =>
      rw [left, right] at related
      cases related
    | error => rfl

end ExactAlgebra.Reader
