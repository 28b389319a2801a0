import ExactAlgebra.Proofs.Phrase
import Mathlib

/-! Words at the front of a text. What is taken as a number is made of digits, a point with digits behind it and
a power of ten, and nothing behind it goes on with them; what is taken as a name is made of letters and digits. -/
namespace ExactAlgebra.Reader
open Text Rational

/-- Two sets of characters have no interval in common. -/
theorem Ranges.holds_false {ranges others : Ranges}
    (apart : ∀ r ∈ ranges, ∀ q ∈ others, r.2 < q.1 ∨ q.2 < r.1) {c : Char} (inside : ranges.holds c = true) :
    others.holds c = false := by
  obtain ⟨r, found⟩ := Option.isSome_iff_exists.mp inside
  have within : r.1 ≤ c.toNat ∧ c.toNat ≤ r.2 := by simpa using List.find?_some found
  have member := List.mem_of_find?_eq_some found
  refine Option.isSome_eq_false_iff.mpr (Option.isNone_iff_eq_none.mpr (List.find?_eq_none.mpr fun q stored => ?_))
  have := apart r member q stored
  simp only [Bool.and_eq_true, decide_eq_true_eq]
  omega

theorem holds_of_isDecimal {c : Char} (decimal : isDecimal c = true) : decimalRanges.holds c = true := by
  unfold isDecimal decimalValue? at decimal
  split at decimal
  next digit =>
    have bounds : 48 ≤ c.toNat ∧ c.toNat ≤ 57 := by simpa [Char.isDigit, UInt32.le_iff_toNat_le] using digit
    unfold Ranges.holds Ranges.find? decimalRanges
    rw [List.find?_cons_of_pos (by simpa using bounds)]
    rfl
  split at decimal
  · cases decimal
  · simpa [Ranges.holds] using decimal

theorem isBlank_of_isDecimal {c : Char} (decimal : isDecimal c = true) : isBlank c = false :=
  Ranges.holds_false (by decide) (holds_of_isDecimal decimal)

def isBracket (c : Char) : Bool := ['(', ')', '[', ']'].contains c

/-- A character that can stand in a token other than a group. -/
def isWordChar (c : Char) : Bool := !isBlank c && !isBracket c

def isNumeral (c : Char) : Bool := isDecimal c || ['.', 'e', 'E', '+', '-'].contains c

theorem isNumeral_of_isDecimal {c : Char} (decimal : isDecimal c = true) : isNumeral c = true := by
  simp [isNumeral, decimal]

theorem isBracket_eq {c : Char} (bracket : isBracket c = true) : c = '(' ∨ c = ')' ∨ c = '[' ∨ c = ']' := by
  simpa [isBracket] using bracket

theorem isWordChar_of_isNumeral {c : Char} (numeral : isNumeral c = true) : isWordChar c = true := by
  have plain : isBracket c = false := by
    by_contra bracket
    rcases isBracket_eq (by simpa using bracket) with rfl | rfl | rfl | rfl <;> revert numeral <;> decide
  rw [isWordChar, plain, Bool.not_false, Bool.and_true]
  rcases Bool.or_eq_true_iff.mp numeral with decimal | other
  · rw [isBlank_of_isDecimal decimal, Bool.not_false]
  · rcases (by simpa using other : c = '.' ∨ c = 'e' ∨ c = 'E' ∨ c = '+' ∨ c = '-') with
      rfl | rfl | rfl | rfl | rfl <;> decide

theorem isWordChar_of_continuesName {c : Char} (continues : continuesName c = true) : isWordChar c = true := by
  have ascii := continuesName_ascii continues
  revert continues
  refine ascii_induction (motive := fun c => continuesName c = true → isWordChar c = true) ?_ ascii
  decide +kernel

def startsDecimal (s : List Char) : Bool := (s.head?.map isDecimal).getD false

theorem takeWhile_isEmpty (s : List Char) : (s.takeWhile isDecimal).isEmpty = !startsDecimal s := by
  cases s with
  | nil => rfl
  | cons c s =>
    rw [startsDecimal, List.takeWhile_cons]
    cases decimal : isDecimal c <;> simp [decimal]

theorem startsDecimal_dropWhile (s : List Char) : startsDecimal (s.dropWhile isDecimal) = false := by
  cases after : s.dropWhile isDecimal with
  | nil => rfl
  | cons c rest =>
    have stops := List.head?_dropWhile_not isDecimal s
    simpa [after, startsDecimal] using stops

/-- Digits and what stands behind them. -/
theorem span_digits {digits rest : List Char} (decimals : ∀ c ∈ digits, isDecimal c = true)
    (ends : startsDecimal rest = false) :
    (digits ++ rest).takeWhile isDecimal = digits ∧ (digits ++ rest).dropWhile isDecimal = rest := by
  refine takeWhile_append_parted rest decimals fun c first => ?_
  simpa [startsDecimal, Option.mem_def.mp first] using ends

theorem takeSign_of_ne {c : Char} {s : List Char} (noPlus : c ≠ '+') (noMinus : c ≠ '-') :
    takeSign (c :: s) = ([], c :: s) := by
  rw [takeSign]
  · exact fun _ same => noPlus (List.cons.inj same).1
  · exact fun _ same => noMinus (List.cons.inj same).1

/-- A character that is a digit, a point or part of a name is no sign. -/
theorem takeSign_word {c : Char} {s : List Char} (word : isDecimal c = true ∨ c = '.' ∨ continuesName c = true) :
    takeSign (c :: s) = ([], c :: s) := by
  refine takeSign_of_ne ?_ ?_
  all_goals
    rintro rfl
    rcases word with decimal | point | continues
    · exact absurd decimal (by decide)
    · exact absurd point (by decide)
    · exact absurd continues (by decide)

/-- A power of ten as it is written: a mark, perhaps a sign, and digits. -/
structure IsPower (mark : Char) (sign digits : List Char) : Prop where
  marks : mark = 'e' ∨ mark = 'E'
  signs : sign = [] ∨ sign = ['+'] ∨ sign = ['-']
  filled : digits ≠ []
  decimals : ∀ c ∈ digits, isDecimal c = true

/-- Digits do not begin with a sign. -/
theorem takeSign_append {sign digits : List Char} (signs : sign = [] ∨ sign = ['+'] ∨ sign = ['-'])
    (filled : digits ≠ []) (decimals : ∀ c ∈ digits, isDecimal c = true) (rest : List Char) :
    takeSign (sign ++ digits ++ rest) = (sign, digits ++ rest) := by
  rcases signs with rfl | rfl | rfl
  · obtain ⟨c, digits, rfl⟩ := List.exists_cons_of_ne_nil filled
    exact takeSign_word (.inl (decimals c List.mem_cons_self))
  · rfl
  · rfl

theorem IsPower.each {mark : Char} {sign digits : List Char} (power : IsPower mark sign digits) :
    ∀ c ∈ mark :: (sign ++ digits), isNumeral c = true := by
  have marks : isNumeral mark = true := by
    rcases power.marks with rfl | rfl <;> decide
  have signs : ∀ c ∈ sign, isNumeral c = true := by
    rcases power.signs with rfl | rfl | rfl <;> simp [isNumeral]
  refine List.forall_mem_cons.mpr ⟨marks, List.forall_mem_append.mpr ⟨signs, fun c member => ?_⟩⟩
  exact isNumeral_of_isDecimal (power.decimals c member)

theorem takeSign_cases (s : List Char) : ((takeSign s).1 = [] ∨ (takeSign s).1 = ['+'] ∨ (takeSign s).1 = ['-']) ∧
    s = (takeSign s).1 ++ (takeSign s).2 := by
  unfold takeSign
  split
  · exact ⟨.inr (.inl rfl), rfl⟩
  · exact ⟨.inr (.inr rfl), rfl⟩
  · exact ⟨.inl rfl, rfl⟩

/-- No power of ten stands at the front where no digits follow its mark and sign. -/
theorem takeExponent?_eq_none_iff (c : Char) (s : List Char) :
    takeExponent? (c :: s) = none ↔ ((c == 'e' || c == 'E') && startsDecimal (takeSign s).2) = false := by
  rw [takeExponent?]
  cases c == 'e' || c == 'E' with
  | false => simp
  | true =>
    simp only [if_true, takeWhile_isEmpty, Bool.true_and]
    cases startsDecimal (takeSign s).2 <;> simp

/-- A power of ten at the front of a text. -/
theorem takeExponent?_eq_some_iff {s sign digits rest : List Char} :
    takeExponent? s = some ((sign, digits), rest) ↔
      ∃ mark, IsPower mark sign digits ∧ s = mark :: (sign ++ digits ++ rest) ∧ startsDecimal rest = false := by
  constructor
  · intro taken
    cases s with
    | nil => cases taken
    | cons mark s =>
      rw [takeExponent?] at taken
      split at taken
      next marks =>
        dsimp only at taken
        split at taken
        · cases taken
        next filled =>
          obtain ⟨signs, parted⟩ := takeSign_cases s
          cases taken
          refine ⟨mark, ⟨by simpa using marks, signs, by simpa using filled, fun c => List.mem_takeWhile_imp⟩, ?_,
            startsDecimal_dropWhile _⟩
          rw [List.append_assoc, List.takeWhile_append_dropWhile, ← parted]
      next => cases taken
  · rintro ⟨mark, ⟨marks, signs, filled, decimals⟩, rfl, ends⟩
    obtain ⟨taken, dropped⟩ := span_digits decimals ends
    have marked : (mark == 'e' || mark == 'E') = true := by simpa using marks
    simp only [takeExponent?, marked, takeSign_append signs filled decimals, taken, dropped, if_true,
      List.isEmpty_eq_false_iff.mpr filled, Bool.false_eq_true, if_false]

/-- What stands before the power of ten in a number: digits, and a point with digits behind it. -/
structure IsMantissa (whole point rest : List Char) : Prop where
  wholes : ∀ c ∈ whole, isDecimal c = true
  points : point = [] ∨ ∃ digits, point = '.' :: digits ∧ ∀ c ∈ digits, isDecimal c = true
  filled : whole ≠ [] ∨ 1 < point.length
  ends : startsDecimal rest = false
  pointless : point = [] → rest.head? ≠ some '.'

theorem IsMantissa.each {whole point rest : List Char} (mantissa : IsMantissa whole point rest) :
    ∀ c ∈ whole ++ point, isDecimal c = true ∨ c = '.' := by
  intro c member
  rcases List.mem_append.mp member with inWhole | inPoint
  · exact .inl (mantissa.wholes c inWhole)
  · rcases mantissa.points with rfl | ⟨digits, rfl, decimals⟩
    · cases inPoint
    · exact (List.mem_cons.mp inPoint).symm.imp_left (decimals c)

/-- Digits stand at the front of a number, or a point before digits. -/
theorem IsMantissa.front {whole point rest : List Char} (mantissa : IsMantissa whole point rest)
    (behind : List Char) : ∃ c tail, whole ++ point = c :: tail ∧ startsNumber c (tail ++ behind) = true := by
  cases whole with
  | cons c whole =>
    have decimal := mantissa.wholes c List.mem_cons_self
    exact ⟨c, whole ++ point, rfl, by simp [startsNumber, isDigit, decimal]⟩
  | nil =>
    have longer : 1 < point.length := mantissa.filled.resolve_left (by simp)
    rcases mantissa.points with rfl | ⟨digits, rfl, decimals⟩
    · simp at longer
    · cases digits with
      | nil => simp at longer
      | cons d digits =>
        have decimal := decimals d List.mem_cons_self
        exact ⟨'.', d :: digits, rfl, by simp [startsNumber, isDigit, decimal]⟩

theorem takeNumber?_eq_some_iff {s : List Char} {found : List Char × List Char} :
    takeNumber? s = some found ↔ ∃ whole point rest, IsMantissa whole point rest ∧
      s = whole ++ point ++ rest ∧ withExponent (whole ++ point) rest = found := by
  constructor
  · intro taken
    unfold takeNumber? at taken
    dsimp only at taken
    split at taken
    next none =>
      split at taken
      next _ behind =>
        split at taken
        · cases taken
        next filled =>
          refine ⟨[], '.' :: behind.takeWhile isDecimal, behind.dropWhile isDecimal, ?_, by simp, Option.some.inj taken⟩
          constructor
          · simp
          · exact .inr ⟨_, rfl, fun c => List.mem_takeWhile_imp⟩
          · exact .inr (by simpa [List.length_pos_iff] using filled)
          · exact startsDecimal_dropWhile behind
          · exact nofun
      next => cases taken
    next filled =>
      have whole : s.takeWhile isDecimal ≠ [] := by simpa using filled
      have parted : s.takeWhile isDecimal ++ s.dropWhile isDecimal = s := List.takeWhile_append_dropWhile
      split at taken
      next _ behind after =>
        refine ⟨s.takeWhile isDecimal, '.' :: behind.takeWhile isDecimal, behind.dropWhile isDecimal, ?_, ?_,
          Option.some.inj taken⟩
        · constructor
          · exact fun c => List.mem_takeWhile_imp
          · exact .inr ⟨_, rfl, fun c => List.mem_takeWhile_imp⟩
          · exact .inl whole
          · exact startsDecimal_dropWhile behind
          · exact nofun
        · rw [List.append_assoc, List.cons_append, List.takeWhile_append_dropWhile, ← after, parted]
      next pointless =>
        refine ⟨s.takeWhile isDecimal, [], s.dropWhile isDecimal, ?_, by simp, by simpa using taken⟩
        constructor
        · exact fun c => List.mem_takeWhile_imp
        · exact .inl rfl
        · exact .inl whole
        · exact startsDecimal_dropWhile s
        · intro _ head
          obtain ⟨behind, after⟩ := List.head?_eq_some_iff.mp head
          exact pointless behind after
  · rintro ⟨whole, point, rest, ⟨wholes, points, filled, ends, pointless⟩, rfl, rfl⟩
    unfold takeNumber?
    rcases points with rfl | ⟨digits, rfl, decimals⟩
    · have whole : whole ≠ [] := filled.resolve_right (by simp)
      obtain ⟨taken, dropped⟩ := span_digits wholes ends
      simp only [List.append_nil, taken, dropped, List.isEmpty_eq_false_iff.mpr whole, Bool.false_eq_true, if_false]
      split
      · exact absurd rfl (pointless rfl)
      · rfl
    · obtain ⟨taken, dropped⟩ := span_digits decimals ends
      have pointed : startsDecimal ('.' :: (digits ++ rest)) = false := rfl
      obtain ⟨taken', dropped'⟩ := span_digits wholes pointed
      rw [List.append_assoc, List.cons_append]
      simp only [taken', dropped']
      cases whole with
      | nil =>
        have some : digits ≠ [] := by simpa [List.length_pos_iff] using filled
        simp only [List.nil_append, List.isEmpty_nil, if_true, taken, dropped, List.isEmpty_eq_false_iff.mpr some,
          Bool.false_eq_true, if_false]
      | cons =>
        simp only [List.isEmpty_cons, Bool.false_eq_true, if_false, taken, dropped]

/-- A power of ten is put after a mantissa if one stands there. -/
theorem withExponent_eq_iff {mantissa rest : List Char} {found : List Char × List Char} :
    withExponent mantissa rest = found ↔ (takeExponent? rest = none ∧ found = (mantissa, rest)) ∨
      ∃ mark sign digits behind, IsPower mark sign digits ∧ rest = mark :: (sign ++ digits ++ behind) ∧
        startsDecimal behind = false ∧ found = (mantissa ++ mark :: (sign ++ digits), behind) := by
  cases taken : takeExponent? rest with
  | none =>
    have plain : withExponent mantissa rest = (mantissa, rest) := by simp [withExponent, taken]
    rw [plain]
    refine ⟨fun same => .inl ⟨rfl, same.symm⟩, ?_⟩
    rintro (⟨-, same⟩ | ⟨mark, sign, digits, behind, power, rfl, ends, -⟩)
    · exact same.symm
    · have impossible := takeExponent?_eq_some_iff.mpr ⟨mark, power, rfl, ends⟩
      rw [taken] at impossible
      cases impossible
  | some parts =>
    obtain ⟨⟨sign, digits⟩, behind⟩ := parts
    obtain ⟨mark, power, rfl, ends⟩ := takeExponent?_eq_some_iff.mp taken
    have raised : withExponent mantissa (mark :: (sign ++ digits ++ behind)) =
        (mantissa ++ mark :: (sign ++ digits), behind) := by
      unfold withExponent
      simp only [taken]
      simp
    rw [raised]
    constructor
    · exact fun same => .inr ⟨mark, sign, digits, behind, power, rfl, ends, same.symm⟩
    · rintro (⟨impossible, -⟩ | ⟨mark', sign', digits', behind', power', same, ends', rfl⟩)
      · cases impossible
      · have taken' := takeExponent?_eq_some_iff.mpr ⟨mark', power', same, ends'⟩
        rw [taken] at taken'
        obtain ⟨rfl, -⟩ := List.cons.inj same
        cases taken'
        rfl

/-- A number at the front of a text, without a power of ten or with one. -/
theorem takeNumber?_iff {s word rest : List Char} : takeNumber? s = some (word, rest) ↔ ∃ whole point,
    (IsMantissa whole point rest ∧ takeExponent? rest = none ∧ word = whole ++ point ∧ s = word ++ rest) ∨
    ∃ mark sign digits, IsMantissa whole point (mark :: (sign ++ digits ++ rest)) ∧ IsPower mark sign digits ∧
      startsDecimal rest = false ∧ word = whole ++ point ++ mark :: (sign ++ digits) ∧ s = word ++ rest := by
  rw [takeNumber?_eq_some_iff]
  constructor
  · rintro ⟨whole, point, after, mantissa, rfl, found⟩
    refine ⟨whole, point, ?_⟩
    rcases withExponent_eq_iff.mp found with ⟨none, same⟩ | ⟨mark, sign, digits, behind, power, rfl, ends, same⟩
    · obtain ⟨rfl, rfl⟩ := Prod.mk.inj same
      exact .inl ⟨mantissa, none, rfl, rfl⟩
    · obtain ⟨rfl, rfl⟩ := Prod.mk.inj same
      exact .inr ⟨mark, sign, digits, mantissa, power, ends, rfl, by simp⟩
  · rintro ⟨whole, point, ⟨mantissa, none, rfl, rfl⟩ | ⟨mark, sign, digits, mantissa, power, ends, rfl, rfl⟩⟩
    · exact ⟨whole, point, rest, mantissa, rfl, withExponent_eq_iff.mpr (.inl ⟨none, rfl⟩)⟩
    · refine ⟨whole, point, _, mantissa, by simp, ?_⟩
      exact withExponent_eq_iff.mpr (.inr ⟨mark, sign, digits, rest, power, rfl, ends, rfl⟩)

/-- A number begins with a digit and with a point before a digit. -/
theorem takeNumber?_eq_none_iff (c : Char) (s : List Char) :
    takeNumber? (c :: s) = none ↔ isDecimal c = false ∧ (c = '.' → startsDecimal s = false) := by
  unfold takeNumber?
  cases decimal : isDecimal c with
  | true => 
    simp only [List.takeWhile_cons, decimal, if_true, List.isEmpty_cons, Bool.false_eq_true, if_false]
    split <;> simp
  | false =>
    simp only [List.takeWhile_cons, decimal, Bool.false_eq_true, if_false, List.isEmpty_nil, if_true]
    split
    next same =>
      obtain ⟨rfl, rfl⟩ := List.cons.inj same
      simp only [takeWhile_isEmpty]
      cases startsDecimal s <;> simp
    next other =>
      simp only [true_and, true_iff]
      rintro rfl
      exact absurd rfl (other s)

theorem takeNumber?_none {c : Char} {rest : List Char} (decimal : isDecimal c = false) (point : c ≠ '.') :
    takeNumber? (c :: rest) = none :=
  (takeNumber?_eq_none_iff c rest).mpr ⟨decimal, fun same => absurd same point⟩

/-- The blanks at the beginning of a text and what stands behind them. -/
theorem blanks_append_stripLeft {rest stripped : List Char} (same : stripLeft rest = stripped) :
    rest.takeWhile isBlank ++ stripped = rest := by
  rw [← same, stripLeft, List.takeWhile_append_dropWhile]

/-- A word at the front of a text and what follows it: the word is not empty, and its characters are of one
class. -/
structure IsWord (inside : Char → Bool) (s word rest : List Char) : Prop where
  nonempty : word ≠ []
  split : s = word ++ rest
  each : ∀ c ∈ word, inside c = true

theorem IsWord.imp {inside weaker : Char → Bool} {s word rest : List Char} (isWord : IsWord inside s word rest)
    (implies : ∀ c, inside c = true → weaker c = true) : IsWord weaker s word rest :=
  ⟨isWord.nonempty, isWord.split, fun c member => implies c (isWord.each c member)⟩

theorem IsWord.length_lt {inside : Char → Bool} {s word rest : List Char} (isWord : IsWord inside s word rest) :
    rest.length < s.length := by
  have filled := List.length_pos_of_ne_nil isWord.nonempty
  rw [isWord.split, List.length_append]
  omega

/-- What follows a word, without the first character of the text. -/
theorem IsWord.drop_tail {inside : Char → Bool} {c : Char} {cs word rest : List Char}
    (isWord : IsWord inside (c :: cs) word rest) : cs.drop (word.length - 1) = rest := by
  obtain ⟨d, tail, rfl⟩ := List.exists_cons_of_ne_nil isWord.nonempty
  have split := isWord.split
  rw [List.cons_append] at split
  obtain ⟨-, rfl⟩ := List.cons.inj split
  rw [List.length_cons, Nat.add_sub_cancel, List.drop_left]

/-- A number at the front of a text. -/
theorem isWord_of_takeNumber? {s word rest : List Char} (taken : takeNumber? s = some (word, rest)) :
    IsWord isNumeral s word rest := by
  obtain ⟨whole, point, cases⟩ := takeNumber?_iff.mp taken
  have front {after : List Char} (mantissa : IsMantissa whole point after) :
      ∀ c ∈ whole ++ point, isNumeral c = true := by
    intro c member
    rcases mantissa.each c member with decimal | rfl
    · exact isNumeral_of_isDecimal decimal
    · decide
  rcases cases with ⟨mantissa, -, rfl, split⟩ | ⟨mark, sign, digits, mantissa, power, -, rfl, split⟩
  · obtain ⟨c, tail, shape, -⟩ := mantissa.front rest
    exact ⟨by simp [shape], split, front mantissa⟩
  · exact ⟨by simp, split, List.forall_mem_append.mpr ⟨front mantissa, power.each⟩⟩

/-- A number begins with a digit or with a point. -/
theorem head_of_takeNumber? {s word rest : List Char} (taken : takeNumber? s = some (word, rest)) :
    ∃ c tail, word = c :: tail ∧ (isDecimal c = true ∨ c = '.') ∧ startsNumber c (tail ++ rest) = true := by
  obtain ⟨whole, point, cases⟩ := takeNumber?_iff.mp taken
  rcases cases with ⟨mantissa, -, rfl, -⟩ | ⟨mark, sign, digits, mantissa, -, -, rfl, -⟩
  · obtain ⟨c, tail, shape, starts⟩ := mantissa.front rest
    exact ⟨c, tail, shape, mantissa.each c (by simp [shape]), starts⟩
  · obtain ⟨c, tail, shape, starts⟩ := mantissa.front (mark :: (sign ++ digits) ++ rest)
    refine ⟨c, tail ++ mark :: (sign ++ digits), by rw [shape, List.cons_append], mantissa.each c (by simp [shape]), ?_⟩
    rwa [List.append_assoc]

/-- A name at the front of a text. -/
theorem isWord_of_takeName? {s word rest : List Char} (taken : takeName? s = some (word, rest)) :
    IsWord continuesName s word rest := by
  cases s with
  | nil => cases taken
  | cons c s =>
    rw [takeName?] at taken
    split at taken
    next starts =>
      cases taken
      refine ⟨by simp, by rw [List.cons_append, List.takeWhile_append_dropWhile], ?_⟩
      exact List.forall_mem_cons.mpr ⟨startsName_continues starts, fun d member => List.mem_takeWhile_imp member⟩
    next => cases taken

theorem head_of_takeName? {s word rest : List Char} (taken : takeName? s = some (word, rest)) :
    ∃ c tail, word = c :: tail ∧ startsName c = true ∧ ∀ d ∈ tail, continuesName d = true := by
  cases s with
  | nil => cases taken
  | cons c s =>
    rw [takeName?] at taken
    split at taken
    next starts =>
      cases taken
      exact ⟨c, s.takeWhile continuesName, rfl, starts, fun d => List.mem_takeWhile_imp⟩
    next => cases taken

end ExactAlgebra.Reader
