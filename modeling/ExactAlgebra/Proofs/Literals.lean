import ExactAlgebra.Proofs.DecimalRounding
import ExactAlgebra.Proofs.Preparation
import ExactAlgebra.Proofs.Scanning
import ExactAlgebra.Rational.Literal
import Mathlib

/-! Literals are read at their value. A literal is a sign, digits with an optional point, and an optional power
of ten; it is read as the number that the places of its digits denote, unless it has too many of them. The text
of a number is a literal or a quotient of two, so a number with short parts is read back from its text. -/
namespace ExactAlgebra

namespace Text

/-- The number that digits denote by their places. -/
def placed (digits : List Char) : ℕ := Nat.ofDigits 10 (digits.reverse.map fun c => (decimalValue? c).getD 0)

theorem naturalOf_eq_placed (digits : List Char) : naturalOf digits = placed digits := by
  induction digits using List.reverseRecOn with
  | nil => rfl
  | append_singleton s c ih =>
    rw [naturalOf_append, List.foldl_cons, List.foldl_nil, ih, placed, placed, List.reverse_append,
      List.reverse_singleton, List.singleton_append, List.map_cons, Nat.ofDigits_cons, Nat.add_comm]

/-- The places of the first digits are moved up by the number of the others. -/
theorem placed_append (s t : List Char) : placed (s ++ t) = placed s * 10 ^ t.length + placed t := by
  rw [placed, List.reverse_append, List.map_append, Nat.ofDigits_append, List.length_map, List.length_reverse,
    ← placed, ← placed, mul_comm, add_comm]

/-- A number has no more digits than its text has characters. -/
theorem length_toString_le_iff (n : Nat) {k : Nat} (some : 0 < k) : (toString n).length ≤ k ↔ n < 10 ^ k := by
  rw [← String.length_toList, toList_toString, Nat.length_toDigits_le_iff (by decide) some]

theorem splitAtChar_of_notMem {separator : Char} {s : List Char} (absent : separator ∉ s) :
    splitAtChar separator s = [s] := by
  induction s with
  | nil => rfl
  | cons c s ih =>
    have other : (c == separator) = false := by
      simpa using fun same : c = separator => absent (same ▸ List.mem_cons_self)
    rw [splitAtChar, ih fun member => absent (List.mem_cons_of_mem _ member)]
    simp [other]

theorem splitAtChar_append {separator : Char} {s t : List Char} (absentS : separator ∉ s)
    (absentT : separator ∉ t) : splitAtChar separator (s ++ separator :: t) = [s, t] := by
  induction s with
  | nil => simp [splitAtChar, splitAtChar_of_notMem absentT]
  | cons c s ih =>
    have other : (c == separator) = false := by
      simpa using fun same : c = separator => absentS (same ▸ List.mem_cons_self)
    rw [List.cons_append, splitAtChar, ih fun member => absentS (List.mem_cons_of_mem _ member)]
    simp [other]

end Text

namespace Rational
open Text Reader

inductive SignMark
  | none
  | plus
  | minus
deriving DecidableEq

namespace SignMark

def chars : SignMark → List Char
  | none => []
  | plus => ['+']
  | minus => ['-']

/-- One, or minus one for a minus sign. -/
def unit : SignMark → ℤ
  | minus => -1
  | _ => 1

end SignMark

/-- A power of ten: a mark, a sign and digits of any script. -/
structure Scale where
  mark : Char
  sign : SignMark
  digits : List Char
  marked : mark = 'e' ∨ mark = 'E'
  decimal : ∀ c ∈ digits, isDecimal c = true
  nonempty : digits ≠ []

namespace Scale

def chars (s : Scale) : List Char := s.mark :: (s.sign.chars ++ s.digits)

def exponent (s : Scale) : ℤ := s.sign.unit * placed s.digits

end Scale

/-- A sign, digits of any script with a point before, between or after them or with none, and a power of ten
or none. -/
structure Literal where
  sign : SignMark
  whole : List Char
  /-- The digits after the point, if there is a point. -/
  fraction : Option (List Char)
  scale : Option Scale
  decimal : ∀ c ∈ whole ++ fraction.getD [], isDecimal c = true
  nonempty : whole ++ fraction.getD [] ≠ []

namespace Literal

/-- The digits after the point. -/
def places (l : Literal) : List Char := l.fraction.getD []

def pointed (l : Literal) : List Char := (l.fraction.map ('.' :: ·)).getD []

def scaled (l : Literal) : List Char := (l.scale.map Scale.chars).getD []

def chars (l : Literal) : List Char := l.sign.chars ++ (l.whole ++ (l.pointed ++ l.scaled))

def text (l : Literal) : String := String.ofList l.chars

/-- The number that the literal denotes by the places of its digits. -/
def value (l : Literal) : ℚ :=
  l.sign.unit * (placed l.whole + placed l.places / 10 ^ l.places.length) *
    10 ^ ((l.scale.map Scale.exponent).getD 0)

/-- At most this many digits stand around the point, and the power of ten has few significant ones. Only the
plain zero counts as insignificant. -/
def IsShort (l : Literal) : Prop :=
  l.whole.length + l.places.length ≤ maxLiteralDigits ∧
    ∀ s ∈ l.scale, (s.digits.dropWhile (· == '0')).length ≤ maxExponentDigits

/-- The digits of the power of ten, zeros at the front among them, can be read as an integer. -/
def HasReadableScale (l : Literal) : Prop := ∀ s ∈ l.scale, s.digits.length ≤ maxIntegerDigits

end Literal

theorem SignMark.isNumeral_chars {sign : SignMark} : ∀ c ∈ sign.chars, isNumeral c = true := by
  cases sign <;> simp [SignMark.chars, isNumeral]

/-- A sign is taken off what does not begin with another one. -/
theorem takeSign_chars (sign : SignMark) {rest : List Char} (unsigned : ∀ c ∈ rest.head?, c ≠ '+' ∧ c ≠ '-') :
    takeSign (sign.chars ++ rest) = (sign.chars, rest) := by
  cases sign with
  | plus | minus => rfl
  | none =>
    change takeSign rest = ([], rest)
    unfold takeSign
    split
    · exact absurd rfl (unsigned '+' rfl).1
    · exact absurd rfl (unsigned '-' rfl).2
    · rfl

theorem unsigned_of_isDecimal {digits rest : List Char} (decimal : ∀ c ∈ digits, isDecimal c = true)
    (nonempty : digits ≠ []) : ∀ c ∈ (digits ++ rest).head?, c ≠ '+' ∧ c ≠ '-' := by
  rw [List.head?_append_of_ne_nil _ nonempty]
  intro c member
  have digit := decimal c (List.mem_of_mem_head? member)
  constructor <;> rintro rfl <;> revert digit <;> decide

namespace Scale

variable (s : Scale)

theorem takeExponent?_chars : takeExponent? s.chars = some ((s.sign.chars, s.digits), []) := by
  have marked : (s.mark == 'e' || s.mark == 'E') = true := by simpa using s.marked
  have unsigned : ∀ c ∈ (s.digits ++ []).head?, c ≠ '+' ∧ c ≠ '-' := unsigned_of_isDecimal s.decimal s.nonempty
  obtain ⟨taken, dropped⟩ := takeWhile_append_parted [] s.decimal (by simp)
  rw [List.append_nil] at unsigned taken dropped
  rw [chars, takeExponent?, if_pos marked, takeSign_chars s.sign unsigned]
  simp [taken, dropped, s.nonempty]

theorem isNumeral_chars : ∀ c ∈ s.chars, isNumeral c = true := by
  have marked : isNumeral s.mark = true := by
    rcases s.marked with same | same <;> rw [same] <;> decide
  intro c member
  rcases List.mem_cons.mp member with rfl | inside
  · exact marked
  · rcases List.mem_append.mp inside with inSign | digit
    · exact SignMark.isNumeral_chars c inSign
    · exact isNumeral_of_isDecimal (s.decimal c digit)

end Scale

namespace Literal

variable (l : Literal)

def parts : Decimal where
  negative := l.sign == .minus
  whole := l.whole
  fraction := l.places
  exponent := l.scale.map fun s => (s.sign.chars, s.digits)

theorem isDecimal_whole : ∀ c ∈ l.whole, isDecimal c = true := fun c member =>
  l.decimal c (List.mem_append_left _ member)

theorem isDecimal_places : ∀ c ∈ l.places, isDecimal c = true := fun c member =>
  l.decimal c (List.mem_append_right _ member)

theorem pointed_cases : l.pointed = [] ∧ l.places = [] ∨ l.pointed = '.' :: l.places := by
  unfold pointed places
  cases l.fraction <;> simp

/-- The power of ten does not begin with a digit. -/
theorem head_scaled : ∀ c ∈ l.scaled.head?, isDecimal c = false ∧ c ≠ '.' ∧ c ≠ '+' ∧ c ≠ '-' := by
  intro c member
  unfold scaled at member
  cases stated : l.scale with
  | none => simp [stated] at member
  | some s =>
    have first : s.mark = c := by simpa [stated, Scale.chars] using member
    rcases s.marked with same | same <;> rw [← first, same] <;> decide

/-- Behind the digits before the point stands the point or the power of ten. -/
theorem head_pointed : ∀ c ∈ (l.pointed ++ l.scaled).head?, isDecimal c = false ∧ c ≠ '+' ∧ c ≠ '-' := by
  rcases l.pointed_cases with ⟨unpointed, _⟩ | pointed
  · rw [unpointed, List.nil_append]
    exact fun c member => ⟨(l.head_scaled c member).1, (l.head_scaled c member).2.2⟩
  · intro c member
    have point : '.' = c := by simpa [pointed] using member
    rw [← point]
    decide

theorem unsigned : ∀ c ∈ (l.whole ++ (l.pointed ++ l.scaled)).head?, c ≠ '+' ∧ c ≠ '-' := by
  by_cases empty : l.whole = []
  · rw [empty, List.nil_append]
    exact fun c member => (l.head_pointed c member).2
  · exact unsigned_of_isDecimal l.isDecimal_whole empty

theorem isNumeral_chars : ∀ c ∈ l.chars, isNumeral c = true := by
  have pointed : ∀ c ∈ l.pointed, isNumeral c = true := by
    rcases l.pointed_cases with ⟨unpointed, _⟩ | pointed
    · simp [unpointed]
    · rw [pointed]
      exact List.forall_mem_cons.mpr ⟨by decide, fun c digit => isNumeral_of_isDecimal (l.isDecimal_places c digit)⟩
  have scaled : ∀ c ∈ l.scaled, isNumeral c = true := by
    unfold scaled
    cases l.scale with
    | none => simp
    | some s => exact s.isNumeral_chars
  intro c member
  simp only [chars, List.mem_append] at member
  rcases member with inSign | inWhole | inPointed | inScaled
  · exact SignMark.isNumeral_chars c inSign
  · exact isNumeral_of_isDecimal (l.isDecimal_whole c inWhole)
  · exact pointed c inPointed
  · exact scaled c inScaled

theorem takeFraction_pointed : takeFraction (l.pointed ++ l.scaled) = (l.places, l.scaled) := by
  obtain ⟨taken, dropped⟩ := takeWhile_append_parted (p := isDecimal) l.scaled
    l.isDecimal_places fun c member => (l.head_scaled c member).1
  rcases l.pointed_cases with ⟨unpointed, none⟩ | pointed
  · rw [unpointed, none, List.nil_append]
    unfold takeFraction
    split
    next s shape => exact absurd rfl (l.head_scaled '.' (by rw [shape]; rfl)).2.1
    next => rfl
  · rw [pointed, List.cons_append, takeFraction, taken, dropped]

/-- A literal is cut into its parts. -/
theorem read?_chars : Decimal.read? l.chars = some l.parts := by
  obtain ⟨taken, dropped⟩ := takeWhile_append_parted (p := isDecimal) (l.pointed ++ l.scaled)
    l.isDecimal_whole fun c member => (l.head_pointed c member).1
  have signed : (l.sign.chars == ['-']) = (l.sign == .minus) := by
    cases l.sign <;> decide
  have nonempty : (l.whole.isEmpty && l.places.isEmpty) = false := by
    have some := l.nonempty
    rw [Ne, List.append_eq_nil_iff] at some
    simpa [List.isEmpty_iff, places] using some
  unfold Decimal.read? parts
  rw [chars, takeSign_chars l.sign l.unsigned]
  simp only [taken, dropped, takeFraction_pointed, nonempty, signed]
  unfold scaled
  cases l.scale with
  | none => rfl
  | some s => simp [s.takeExponent?_chars]

theorem inRange_parts : l.parts.inRange = true ↔ l.IsShort := by
  unfold Decimal.inRange parts IsShort
  cases l.scale <;> simp

theorem isReadable_parts : l.parts.isReadable = true ↔ l.HasReadableScale := by
  unfold Decimal.isReadable parts HasReadableScale
  cases l.scale <;> simp

/-- The parts of a literal denote what the literal does. -/
theorem value_parts : l.parts.value = l.value := by
  have magnitude : mkRat (naturalOf (l.whole ++ l.places)) (Nat.pow 10 l.places.length) =
      placed l.whole + placed l.places / 10 ^ l.places.length := by
    have nonzero : (10 : ℚ) ^ l.places.length ≠ 0 := by positivity
    rw [naturalOf_eq_placed, placed_append, Rat.mkRat_eq_div, Nat.pow_eq]
    push_cast
    rw [add_div, mul_div_cancel_right₀ _ nonzero]
  have power (digits : List Char) : mkRat (Nat.pow 10 (naturalOf digits)) 1 = 10 ^ placed digits := by
    rw [naturalOf_eq_placed, Rat.mkRat_eq_div, Nat.pow_eq]
    push_cast
    rw [div_one]
  unfold Decimal.value parts value
  dsimp only
  rw [magnitude]
  generalize (placed l.whole : ℚ) + placed l.places / 10 ^ l.places.length = m
  cases l.scale with
  | none => cases l.sign <;> simp [SignMark.unit]
  | some s =>
    simp only [Option.map_some, Option.getD_some, power, Scale.exponent]
    cases l.sign <;> cases s.sign <;> simp [SignMark.chars, SignMark.unit, div_eq_mul_inv]

theorem isBlank_chars : ∀ c ∈ l.chars, isBlank c = false := fun c member => by
  have word := isWordChar_of_isNumeral (l.isNumeral_chars c member)
  simp only [isWordChar, Bool.and_eq_true, Bool.not_eq_true'] at word
  exact word.1

theorem slash_notMem_chars : '/' ∉ l.chars := fun member => by
  have numeral := l.isNumeral_chars '/' member
  revert numeral
  decide

theorem ofDecimal_chars : ofDecimal l.chars =
    if !l.parts.inRange then .error (.literalOutOfRange (quoted (String.ofList (l.chars.take 20))))
    else if l.parts.isReadable then .ok l.value else .error .unsupported := by
  unfold ofDecimal
  rw [strip_of_notBlank l.isBlank_chars]
  simp only [l.read?_chars, l.value_parts]

def ofInteger (n : ℤ) : Literal where
  sign := if n < 0 then .minus else .none
  whole := (toString n.natAbs).toList
  fraction := none
  scale := none
  decimal c member := by
    rw [Option.getD_none, List.append_nil] at member
    exact isDecimal_of_isDigit (isDigit_of_mem_toString member)
  nonempty := by
    rw [Option.getD_none, List.append_nil]
    exact toList_toString_ne_nil n.natAbs

theorem text_ofInteger (n : ℤ) : (ofInteger n).text = toString n := by
  have chars : (ofInteger n).chars = (ofInteger n).sign.chars ++ (toString n.natAbs).toList :=
    congrArg ((ofInteger n).sign.chars ++ ·) (List.append_nil _)
  rw [text, chars, ← String.toList_inj, String.toList_ofList]
  cases n with
  | ofNat n =>
    have written : toString (Int.ofNat n) = toString n := rfl
    have unsigned : (ofInteger n).sign = .none := by simp [ofInteger]
    rw [written, Int.ofNat_eq_natCast, unsigned]
    rfl
  | negSucc n =>
    have written : toString (Int.negSucc n) = "-" ++ toString (n + 1) := rfl
    have negative : (ofInteger (Int.negSucc n)).sign = .minus := by simp [ofInteger]
    rw [written, String.toList_append, negative]
    rfl

theorem value_ofInteger (n : ℤ) : (ofInteger n).value = n := by
  have whole : placed (ofInteger n).whole = n.natAbs := by
    rw [← naturalOf_eq_placed]
    exact naturalOf_toString n.natAbs
  have places : (ofInteger n).places = [] := rfl
  have scale : (ofInteger n).scale = none := rfl
  have magnitude : (n.natAbs : ℚ) = |n| := by simp
  rw [value, whole, places, scale, magnitude]
  unfold ofInteger
  split
  next negative => simp [SignMark.unit, placed, abs_of_neg negative]
  next positive => simp [SignMark.unit, placed, abs_of_nonneg (not_lt.mp positive)]

theorem isShort_ofInteger (n : ℤ) : (ofInteger n).IsShort ↔ n.natAbs < 10 ^ maxLiteralDigits := by
  have digits : (ofInteger n).whole.length + (ofInteger n).places.length = (toString n.natAbs).length :=
    String.length_toList
  have scale : (ofInteger n).scale = none := rfl
  rw [IsShort, digits, scale, length_toString_le_iff _ (by decide : 0 < maxLiteralDigits)]
  simp

end Literal

theorem ofText_literal (l : Literal) : ofText l.text = ofDecimal l.chars := by
  rw [ofText, Literal.text, String.toList_ofList, strip_of_notBlank l.isBlank_chars,
    splitAtChar_of_notMem l.slash_notMem_chars, ofQuotient]

theorem ofText_quotient (l m : Literal) : ofText (l.text ++ "/" ++ m.text) = (do
      let a ← ofDecimal l.chars
      let b ← ofDecimal m.chars
      divide a b) := by
  have chars : (l.text ++ "/" ++ m.text).toList = l.chars ++ '/' :: m.chars := by
    simp [Literal.text]
  have solid : ∀ c ∈ l.chars ++ '/' :: m.chars, isBlank c = false := by
    simp only [List.mem_append, List.mem_cons]
    rintro c (first | rfl | second)
    · exact l.isBlank_chars c first
    · decide
    · exact m.isBlank_chars c second
  rw [ofText, chars, strip_of_notBlank solid, splitAtChar_append l.slash_notMem_chars m.slash_notMem_chars]
  rfl

/-- A short literal is read at its value, as long as its power of ten can be read. -/
theorem ofDecimal_short {l : Literal} (short : l.IsShort) (readable : l.HasReadableScale) :
    ofDecimal l.chars = .ok l.value := by
  rw [l.ofDecimal_chars, l.inRange_parts.mpr short, l.isReadable_parts.mpr readable]
  rfl

/-- A long literal is out of range. -/
theorem ofDecimal_long {l : Literal} (long : ¬ l.IsShort) :
    ofDecimal l.chars = .error (.literalOutOfRange (quoted (String.ofList (l.chars.take 20)))) := by
  have outside := Bool.eq_false_of_not_eq_true (mt l.inRange_parts.mp long)
  rw [l.ofDecimal_chars, outside]
  rfl

theorem ofDecimal_ofInteger {n : ℤ} (short : n.natAbs < 10 ^ maxLiteralDigits) :
    ofDecimal (Literal.ofInteger n).chars = .ok (n : ℚ) := by
  rw [ofDecimal_short ((Literal.isShort_ofInteger n).mpr short) (by simp [Literal.HasReadableScale, Literal.ofInteger]),
    Literal.value_ofInteger]

/-- The digits of a number are read as that number, unless they are too many. -/
theorem ofText_toString {n : Nat} (short : (toString n).length ≤ maxLiteralDigits) :
    ofText (toString n) = .ok (n : Rat) := by
  have small := (length_toString_le_iff n (by decide : 0 < maxLiteralDigits)).mp short
  have written : toString n = (Literal.ofInteger n).text := (Literal.text_ofInteger n).symm
  rw [written, ofText_literal, ofDecimal_ofInteger (by simpa using small), Int.cast_natCast]

/-- Both parts of the number have as few digits as a literal may have. -/
def HasShortParts (a : ℚ) : Prop := a.num.natAbs < 10 ^ maxLiteralDigits ∧ a.den < 10 ^ maxLiteralDigits

def HasWritableParts (a : ℚ) : Prop := a.num.natAbs < 10 ^ digitLimit ∧ a.den < 10 ^ digitLimit

theorem isWritable_iff (a : ℚ) : isWritable a = true ↔ HasWritableParts a := by
  rw [isWritable, Bool.and_eq_true, decide_eq_true_eq, decide_eq_true_eq, HasWritableParts, ← digitBound_eq]

/-- The text of a number is a literal, or a quotient of two. -/
theorem ofText_text (a : ℚ) : ofText (text a) =
    if a.den = 1 then ofDecimal (Literal.ofInteger a.num).chars
    else (do
      let numerator ← ofDecimal (Literal.ofInteger a.num).chars
      let denominator ← ofDecimal (Literal.ofInteger a.den).chars
      divide numerator denominator) := by
  unfold text
  split
  · rw [← Literal.text_ofInteger, ofText_literal]
  · have written : toString a.den = (Literal.ofInteger a.den).text := (Literal.text_ofInteger a.den).symm
    rw [← Literal.text_ofInteger, written, ofText_quotient]

theorem ofText_text_short {a : ℚ} (short : HasShortParts a) : ofText (text a) = .ok a := by
  have numerator := ofDecimal_ofInteger short.1
  have denominator := ofDecimal_ofInteger (n := a.den) (by simpa using short.2)
  have nonzero : ((a.den : ℤ) : ℚ) ≠ 0 := by simp
  rw [ofText_text]
  split
  next whole => rw [numerator, Rat.coe_int_num_of_den_eq_one whole]
  next =>
    rw [numerator, denominator]
    change divide a.num (a.den : ℤ) = _
    rw [divide, if_neg nonzero, Int.cast_natCast, Rat.num_div_den]

theorem ofText_text_long {a : ℚ} (long : ¬ HasShortParts a) :
    ∃ quotation, ofText (text a) = .error (.literalOutOfRange quotation) := by
  have above {n : ℤ} (large : ¬ n.natAbs < 10 ^ maxLiteralDigits) :=
    ofDecimal_long (mt (Literal.isShort_ofInteger n).mp large)
  rw [ofText_text]
  by_cases numerator : a.num.natAbs < 10 ^ maxLiteralDigits
  · have denominator : ¬ (a.den : ℤ).natAbs < 10 ^ maxLiteralDigits := fun small =>
      long ⟨numerator, by simpa using small⟩
    have fraction : a.den ≠ 1 := by
      intro whole
      rw [whole] at denominator
      exact denominator (one_lt_pow₀ (by decide) (by decide))
    rw [if_neg fraction, ofDecimal_ofInteger numerator, above denominator]
    exact ⟨_, rfl⟩
  · rw [above numerator]
    split <;> exact ⟨_, rfl⟩

/-- A number with short parts is read back from its text; with longer parts the text is an invalid number, and
with parts that are too long to be written out there is no text. A short literal is read at the number that the
places of its digits denote. -/
theorem numbers_read_back :
    (∀ a, HasShortParts a → (written a >>= ofText) = .ok a) ∧
      (∀ a, HasWritableParts a → ¬ HasShortParts a → ∃ fault, (written a >>= ofText) = .error fault ∧
        fault.kind = .literal ∧ fault.code = "INVALID_NUMBER") ∧
      (∀ a, ¬ HasWritableParts a → written a = .error .unsupported) ∧
      ∀ l : Literal, l.IsShort → l.HasReadableScale → ofText l.text = .ok l.value := by
  have read {a : ℚ} (writable : HasWritableParts a) : (written a >>= ofText) = ofText (text a) := by
    rw [written, if_pos ((isWritable_iff a).mpr writable)]
    rfl
  have digits : (10 : ℕ) ^ maxLiteralDigits ≤ 10 ^ digitLimit := Nat.pow_le_pow_right (by decide) (by decide)
  refine ⟨fun a short => ?_, fun a writable long => ?_, fun a unwritable => ?_, fun l short readable => ?_⟩
  · rw [read ⟨short.1.trans_le digits, short.2.trans_le digits⟩, ofText_text_short short]
  · obtain ⟨quotation, refused⟩ := ofText_text_long long
    exact ⟨_, (read writable).trans refused, rfl, rfl⟩
  · rw [written, if_neg (mt (isWritable_iff a).mp unwritable)]
  · rw [ofText_literal, ofDecimal_short short readable]

/-- How long a power of ten is. -/
theorem parts_of_power (n limit : ℕ) :
    ((10 : ℚ) ^ n).num.natAbs < 10 ^ limit ∧ ((10 : ℚ) ^ n).den < 10 ^ limit ↔ n < limit := by
  have cast : (10 : ℚ) ^ n = (10 ^ n : ℕ) := by simp
  rw [cast, Rat.num_natCast, Rat.den_natCast, Int.natAbs_natCast, Nat.pow_lt_pow_iff_right (by decide)]
  exact and_iff_left_of_imp fun below => one_lt_pow₀ (by decide) (Nat.ne_zero_of_lt below)

def minusHundredTwentyFive : Literal where
  sign := .minus
  whole := ['1']
  fraction := some ['2', '5']
  scale := some
    { mark := 'E', sign := .plus, digits := ['2'], marked := by decide, nonempty := by decide,
      decimal := by simp [isDecimal, decimalValue?] }
  decimal := by simp [isDecimal, decimalValue?]
  nonempty := by decide

theorem value_minusHundredTwentyFive : minusHundredTwentyFive.value = -125 := by
  have digits : placed ['1'] = 1 ∧ placed ['2', '5'] = 25 ∧ placed ['2'] = 2 := by decide
  obtain ⟨one, twentyFive, two⟩ := digits
  simp [minusHundredTwentyFive, Literal.value, Literal.places, Scale.exponent, SignMark.unit, one, twentyFive, two]
  norm_num

theorem numbers_read_back_at_powers_of_ten :
    (written (1 / 1000) >>= ofText) = .ok (1 / 1000) ∧
      (∃ fault, (written (10 ^ 3000) >>= ofText) = .error fault ∧ fault.kind = .literal ∧
        fault.code = "INVALID_NUMBER") ∧
      written (10 ^ 4300) = .error .unsupported ∧ ofText "-1.25E+2" = .ok (-125) := by
  obtain ⟨short, long, unwritable, literal⟩ := numbers_read_back
  have thousandth : (1 / 1000 : ℚ).num.natAbs = 1 ∧ (1 / 1000 : ℚ).den = 1000 := by norm_num
  have text : minusHundredTwentyFive.text = "-1.25E+2" := by decide
  have few : minusHundredTwentyFive.IsShort ∧ minusHundredTwentyFive.HasReadableScale := by
    simp [Literal.IsShort, Literal.HasReadableScale, minusHundredTwentyFive, Literal.places, maxLiteralDigits,
      maxExponentDigits, maxIntegerDigits]
  refine ⟨short _ ⟨?_, ?_⟩, long _ ?_ ?_, unwritable _ ?_, ?_⟩
  · exact thousandth.1.trans_lt (one_lt_pow₀ (by decide) (by decide))
  · exact thousandth.2.trans_lt (by decide +kernel)
  · exact (parts_of_power 3000 digitLimit).mpr (by decide)
  · exact mt (parts_of_power 3000 maxLiteralDigits).mp (by decide)
  · exact mt (parts_of_power 4300 digitLimit).mp (by decide)
  · rw [← text, literal minusHundredTwentyFive few.1 few.2, value_minusHundredTwentyFive]

/-- A number of more digits than can be written out has no text to be read back, which is no refusal of an
invalid number. -/
theorem not_written_long_power :
    ¬ HasShortParts (10 ^ 4300) ∧ (written (10 ^ 4300) >>= ofText) = .error .unsupported ∧
      Fault.unsupported.code ≠ "INVALID_NUMBER" := by
  have unwritable : ¬ isWritable (10 ^ 4300) = true :=
    mt ((isWritable_iff _).trans (parts_of_power 4300 digitLimit)).mp (by decide)
  refine ⟨mt (parts_of_power 4300 maxLiteralDigits).mp (by decide), ?_, by decide⟩
  rw [written, if_neg unwritable]
  rfl

end Rational
end ExactAlgebra
