import ExactAlgebra.Proofs.Preparation
import ExactAlgebra.Proofs.SignedTexts
import Mathlib

/-! Writing out multiplication. The passes over a text that put a sign behind a number and behind a closing
parenthesis leave its meaning as it is, unless a number with a signed power of ten stands right before another
power of ten. -/
namespace ExactAlgebra.Reader
open Text Rational

/-- No number of the text that has a signed power of ten stands right before another power of ten. -/
def SinglePowers (s : List Char) : Prop :=
  ∀ t, t <:+ s → ∀ word rest, takeNumber? t = some (word, rest) → '+' ∈ word ∨ '-' ∈ word → takeExponent? rest = none

theorem SinglePowers.suffix {s t : List Char} (single : SinglePowers s) (suffix : t <:+ s) : SinglePowers t :=
  fun u inside => single u (inside.trans suffix)

theorem multiplyNumbers_skip (before : Option Char) (word rest : List Char) :
    ∃ last, multiplyNumbers before word.length (word ++ rest) = multiplyNumbers last 0 rest := by
  induction word generalizing before with
  | nil => exact ⟨before, rfl⟩
  | cons c word ih => exact ih (some c)

/-- Behind the word, the pass writes a sign before an operand and leaves out the blanks between them. -/
def WritesSign (before : Option Char) (s word rest : List Char) : Prop :=
  ∃ last d behind, stripLeft rest = d :: behind ∧ startsOperand d = true ∧
    multiplyNumbers before 0 s = word ++ '*' :: multiplyNumbers last 0 (d :: behind)

/-- Behind a number that may begin here, a sign is written, or only the first character is passed over. -/
theorem multiplyNumbers_number {before : Option Char} (opens : (before.map joinsNumber).getD false = false) {c : Char}
    {tail rest : List Char} (taken : takeNumber? (c :: (tail ++ rest)) = some (c :: tail, rest)) :
    WritesSign before (c :: (tail ++ rest)) (c :: tail) rest ∨
      multiplyNumbers before 0 (c :: (tail ++ rest)) = c :: multiplyNumbers (some c) 0 (tail ++ rest) := by
  unfold WritesSign
  rw [multiplyNumbers]
  simp only [opens, Bool.false_eq_true, if_false, taken]
  cases stripped : stripLeft rest with
  | nil => exact .inr rfl
  | cons d behind =>
    dsimp only
    split
    next operand =>
      have parted : tail ++ rest = tail ++ rest.takeWhile isBlank ++ d :: behind := by
        rw [List.append_assoc, blanks_append_stripLeft stripped]
      have skip : (tail ++ rest).length - (d :: behind).length = (tail ++ rest.takeWhile isBlank).length := by
        rw [parted, List.length_append]
        omega
      have starts : startsOperand d = true := by
        have either := (Bool.and_eq_true_iff.mp operand).1
        rcases (by simpa using either : startsName d = true ∨ d = '(') with name | rfl
        · simp [startsOperand, name]
        · rfl
      obtain ⟨last, passed⟩ := multiplyNumbers_skip (some c) (tail ++ rest.takeWhile isBlank) (d :: behind)
      exact .inl ⟨last, d, behind, rfl, starts, by rw [skip, parted, passed]⟩
    · exact .inr rfl

theorem joinsNumber_of_isDecimal {c : Char} (decimal : isDecimal c = true) : joinsNumber c = true := by
  simp [joinsNumber, decimal]

theorem withExponent_append (digits mantissa rest : List Char) : withExponent (digits ++ mantissa) rest =
    (digits ++ (withExponent mantissa rest).1, (withExponent mantissa rest).2) := by
  unfold withExponent
  split <;> simp

/-- A written number with a signed power of ten: what stands before the sign, the sign and the digits. -/
structure IsSplitAtSign (word front : List Char) (sign : Char) (digits : List Char) : Prop where
  shape : word = front ++ sign :: digits
  signs : sign = '+' ∨ sign = '-'
  filled : front ≠ []
  joined : ∀ c ∈ front, joinsNumber c = true
  digitsFilled : digits ≠ []
  decimals : ∀ c ∈ digits, isDecimal c = true

theorem IsSplitAtSign.sign_mem {word front digits : List Char} {sign : Char}
    (split : IsSplitAtSign word front sign digits) : '+' ∈ word ∨ '-' ∈ word := by
  rw [split.shape]
  rcases split.signs with rfl | rfl <;> simp

/-- Inside a number no other number begins, but for the digits behind the sign of a power of ten. -/
theorem number_shape {word rest : List Char} (taken : takeNumber? (word ++ rest) = some (word, rest)) :
    (∀ c ∈ word, joinsNumber c = true) ∨
      ∃ front sign digits, IsSplitAtSign word front sign digits ∧ startsDecimal rest = false := by
  obtain ⟨whole, point, cases⟩ := takeNumber?_iff.mp taken
  have joined {after : List Char} (mantissa : IsMantissa whole point after) :
      ∀ c ∈ whole ++ point, joinsNumber c = true := by
    intro c member
    rcases mantissa.each c member with decimal | rfl
    · exact joinsNumber_of_isDecimal decimal
    · rfl
  rcases cases with ⟨mantissa, -, rfl, -⟩ | ⟨mark, sign, digits, mantissa, power, ends, rfl, -⟩
  · exact .inl (joined mantissa)
  have marks : joinsNumber mark = true := by
    rcases power.marks with rfl | rfl <;> decide
  have front : ∀ c ∈ whole ++ point ++ [mark], joinsNumber c = true :=
    List.forall_mem_append.mpr ⟨joined mantissa, by simpa using marks⟩
  have signed {c : Char} (signs : c = '+' ∨ c = '-') (same : sign = [c]) :
      IsSplitAtSign (whole ++ point ++ mark :: (sign ++ digits)) (whole ++ point ++ [mark]) c digits :=
    ⟨by simp [same], signs, by simp, front, power.filled, power.decimals⟩
  rcases power.signs with rfl | plus | minus
  · refine .inl ?_
    rw [List.nil_append, List.append_cons]
    refine List.forall_mem_append.mpr ⟨front, fun c member => ?_⟩
    exact joinsNumber_of_isDecimal (power.decimals c member)
  · exact .inr ⟨_, _, _, signed (.inl rfl) plus, ends⟩
  · exact .inr ⟨_, _, _, signed (.inr rfl) minus, ends⟩

section Numbers

variable {n : ℕ} {before : Option Char} {rest : List Char}

def SignsShorter (n : ℕ) : Prop :=
  ∀ s : List Char, s.length < n → SinglePowers s → ∀ before after, Signed after s (multiplyNumbers before 0 s)

/-- A sign is written behind the word or the word is passed over; both ways the texts go on signed. -/
theorem signed_behind (shorter : SignsShorter n) (short : rest.length < n) (single : SinglePowers rest)
    {s word : List Char} (written : WritesSign before s word rest ∨
      ∃ last, multiplyNumbers before 0 s = word ++ multiplyNumbers last 0 rest) :
    ∃ t, multiplyNumbers before 0 s = word ++ t ∧ Signed true rest t := by
  rcases written with ⟨last, d, behind, stripped, operand, passed⟩ | ⟨last, passed⟩
  · have suffix : d :: behind <:+ rest := stripped ▸ List.dropWhile_suffix isBlank
    have signed := shorter _ (suffix.length_le.trans_lt short) (single.suffix suffix) last false
    exact ⟨_, passed, signed.sign_stripLeft stripped operand⟩
  · exact ⟨_, passed, shorter rest short single last true⟩

/-- Characters in which no number begins are passed over. -/
theorem multiplyNumbers_tail {c : Char} {tail : List Char} {s : List Char}
    (passed : multiplyNumbers before 0 s = c :: multiplyNumbers (some c) 0 (tail ++ rest))
    (inside : ∀ d ∈ c :: tail, joinsNumber d = true) :
    ∃ last, multiplyNumbers before 0 s = c :: tail ++ multiplyNumbers last 0 rest := by
  obtain ⟨joins, tailJoins⟩ := List.forall_mem_cons.mp inside
  have opened : ((some c).map joinsNumber).getD false = true := joins
  obtain ⟨last, within⟩ := multiplyNumbers_within opened tailJoins rest
  exact ⟨last, by rw [passed, within, List.cons_append]⟩

/-- A number may begin with a point. Where none does, both texts are refused at the point. -/
theorem signed_point {behind fraction after t : List Char}
    (found : withExponent ('.' :: behind.takeWhile isDecimal) (behind.dropWhile isDecimal) = (fraction, after))
    (split : '.' :: behind = fraction ++ after) (signed : Signed true after t) :
    Signed true ('.' :: behind) (fraction ++ t) := by
  cases starts : startsDecimal behind with
  | true =>
    have mantissa : IsMantissa [] ('.' :: behind.takeWhile isDecimal) (behind.dropWhile isDecimal) := by
      constructor
      · exact nofun
      · exact .inr ⟨_, rfl, fun d => List.mem_takeWhile_imp⟩
      · have some : (behind.takeWhile isDecimal).isEmpty = false := by simp [takeWhile_isEmpty, starts]
        exact .inr (by simpa [List.length_pos_iff] using some)
      · exact startsDecimal_dropWhile behind
      · exact nofun
    have taken : takeNumber? ('.' :: behind) = some (fraction, after) :=
      takeNumber?_eq_some_iff.mpr ⟨[], _, _, mantissa, by simp, found⟩
    rw [split] at taken ⊢
    exact .number taken signed
  | false =>
    have none : behind.takeWhile isDecimal = [] := by simpa [starts] using takeWhile_isEmpty behind
    have whole : behind.dropWhile isDecimal = behind := by
      have parted : behind.takeWhile isDecimal ++ behind.dropWhile isDecimal = behind :=
        List.takeWhile_append_dropWhile
      rwa [none, List.nil_append] at parted
    rw [none, whole] at found
    rcases withExponent_eq_iff.mp found with ⟨-, same⟩ | ⟨mark, sign, digits, rest, power, -, -, same⟩
    · obtain ⟨rfl, rfl⟩ := Prod.mk.inj same
      exact .point starts (signed.endsLike.startsDecimal starts)
    · obtain ⟨rfl, -⟩ := Prod.mk.inj same
      refine .point starts ?_
      rcases power.marks with rfl | rfl <;> rfl

/-- The digits behind the sign of a power of ten can be taken for the beginning of a number. With the point and
the digits behind them they can make up a longer one, which the cutting reads as two. -/
theorem signed_powerDigits (shorter : SignsShorter n) (short : rest.length < n) (single : SinglePowers rest)
    {digits : List Char} (filled : digits ≠ []) (decimals : ∀ c ∈ digits, isDecimal c = true)
    (ends : startsDecimal rest = false) (powerless : takeExponent? rest = none)
    (opens : (before.map joinsNumber).getD false = false) :
    ∃ t, multiplyNumbers before 0 (digits ++ rest) = digits ++ t ∧ Signed true rest t := by
  obtain ⟨c, tail, rfl⟩ := List.exists_cons_of_ne_nil filled
  have inside : ∀ d ∈ c :: tail, joinsNumber d = true := fun d member => joinsNumber_of_isDecimal (decimals d member)
  by_cases pointed : rest.head? = some '.'
  · obtain ⟨behind, rfl⟩ := List.head?_eq_some_iff.mp pointed
    obtain ⟨fraction, after, found⟩ : ∃ fraction after,
        withExponent ('.' :: behind.takeWhile isDecimal) (behind.dropWhile isDecimal) = (fraction, after) := ⟨_, _, rfl⟩
    have mantissa : IsMantissa (c :: tail) ('.' :: behind.takeWhile isDecimal) (behind.dropWhile isDecimal) :=
      ⟨decimals, .inr ⟨_, rfl, fun d => List.mem_takeWhile_imp⟩, .inl filled, startsDecimal_dropWhile behind, nofun⟩
    have taken : takeNumber? (c :: (tail ++ '.' :: behind)) = some (c :: (tail ++ fraction), after) :=
      takeNumber?_eq_some_iff.mpr ⟨c :: tail, _, _, mantissa, by simp, by rw [withExponent_append, found]; rfl⟩
    have split : '.' :: behind = fraction ++ after := by
      have whole := (isWord_of_takeNumber? taken).split
      rw [List.cons_append, List.append_assoc] at whole
      exact List.append_cancel_left (List.cons.inj whole).2
    have longer : tail ++ '.' :: behind = tail ++ fraction ++ after := by rw [split, List.append_assoc]
    rw [longer] at taken
    rw [List.cons_append, longer]
    rcases multiplyNumbers_number opens taken with written | passed
    · have suffix : after <:+ '.' :: behind := split ▸ List.suffix_append fraction after
      obtain ⟨t, written, signed⟩ :=
        signed_behind shorter (suffix.length_le.trans_lt short) (single.suffix suffix) (.inl written)
      exact ⟨fraction ++ t, by rw [written]; simp, signed_point found split signed⟩
    · rw [← longer] at passed ⊢
      exact signed_behind shorter short single (.inr (multiplyNumbers_tail passed inside))
  · have mantissa : IsMantissa (c :: tail) [] rest := ⟨decimals, .inl rfl, .inl filled, ends, fun _ => pointed⟩
    have taken : takeNumber? (c :: (tail ++ rest)) = some (c :: tail, rest) :=
      takeNumber?_iff.mpr ⟨c :: tail, [], .inl ⟨mantissa, powerless, by simp, by simp⟩⟩
    refine signed_behind shorter short single ?_
    exact (multiplyNumbers_number opens taken).imp_right fun passed => multiplyNumbers_tail passed inside

theorem signed_number (shorter : SignsShorter n) (short : rest.length < n) {word : List Char}
    (single : SinglePowers (word ++ rest)) (taken : takeNumber? (word ++ rest) = some (word, rest)) :
    ∃ t, multiplyNumbers before 0 (word ++ rest) = word ++ t ∧ Signed true rest t := by
  have singleRest : SinglePowers rest := single.suffix (List.suffix_append word rest)
  obtain ⟨c, tail, rfl, -⟩ := head_of_takeNumber? taken
  have step : WritesSign before (c :: (tail ++ rest)) (c :: tail) rest ∨
      multiplyNumbers before 0 (c :: (tail ++ rest)) = c :: multiplyNumbers (some c) 0 (tail ++ rest) := by
    cases opens : (before.map joinsNumber).getD false with
    | true => exact .inr (multiplyNumbers_of_none (.inl opens))
    | false => exact multiplyNumbers_number opens taken
  rcases step with written | passed
  · exact signed_behind shorter short singleRest (.inl written)
  rcases number_shape taken with inside | ⟨front, sign, digits, split, ends⟩
  · exact signed_behind shorter short singleRest (.inr (multiplyNumbers_tail passed inside))
  -- What stands before the sign is passed over, and so is the sign; then its digits may begin a number.
  have powerless : takeExponent? rest = none := single _ (List.suffix_refl _) _ _ taken split.sign_mem
  obtain ⟨shape, signs, filled, joined, digitsFilled, decimals⟩ := split
  obtain ⟨first, front, rfl⟩ := List.exists_cons_of_ne_nil filled
  rw [List.cons_append] at shape
  obtain ⟨rfl, rfl⟩ := List.cons.inj shape
  rw [List.append_assoc] at passed
  obtain ⟨last, upToSign⟩ := multiplyNumbers_tail passed joined
  have plain : isDecimal sign = false ∧ sign ≠ '.' ∧ joinsNumber sign = false := by
    rcases signs with rfl | rfl <;> decide
  have overSign : multiplyNumbers last 0 (sign :: (digits ++ rest)) =
      sign :: multiplyNumbers (some sign) 0 (digits ++ rest) :=
    multiplyNumbers_of_none (.inr (takeNumber?_none plain.1 plain.2.1))
  have opens : ((some sign).map joinsNumber).getD false = false := plain.2.2
  obtain ⟨t, written, signed⟩ :=
    signed_powerDigits shorter short singleRest digitsFilled decimals ends powerless opens
  refine ⟨t, ?_, signed⟩
  rw [List.cons_append, List.append_assoc, upToSign, List.cons_append, List.cons_append, overSign, written]
  simp

end Numbers

theorem signed_multiplyNumbers {s : List Char} (single : SinglePowers s) (before : Option Char) (after : Bool) :
    Signed after s (multiplyNumbers before 0 s) := by
  induction s using front_induction generalizing before after with
  | nil => exact .nil
  | number word rest taken ih =>
    have shorter : SignsShorter (word ++ rest).length := fun t less single => ih t less single
    have short := (isWord_of_takeNumber? taken).length_lt
    obtain ⟨t, written, signed⟩ := signed_number shorter short single taken
    rw [written]
    exact .number taken signed
  | name word rest taken ih =>
    have short := (isWord_of_takeName? taken).length_lt
    obtain ⟨c, tail, rfl, starts, inside⟩ := head_of_takeName? taken
    obtain ⟨-, digit, point, -⟩ := startsName_only starts
    have decimal : isDecimal c = false := (Bool.or_eq_false_iff.mp digit).1
    have joined : ∀ d ∈ c :: tail, joinsNumber d = true :=
      List.forall_mem_cons.mpr ⟨joinsNumber_of_continues (startsName_continues starts),
        fun d member => joinsNumber_of_continues (inside d member)⟩
    have passed := @multiplyNumbers_of_none before c (tail ++ rest) (.inr (takeNumber?_none decimal point))
    obtain ⟨last, written⟩ := multiplyNumbers_tail passed joined
    rw [List.cons_append, written, ← List.cons_append]
    exact .name taken (ih rest short (single.suffix (List.suffix_append _ _)) last false)
  | point rest ends ih =>
    have none : takeNumber? ('.' :: rest) = none := (takeNumber?_eq_none_iff '.' rest).mpr ⟨by decide, fun _ => ends⟩
    rw [multiplyNumbers_of_none (.inr none)]
    have later := ih (single.suffix (List.suffix_cons '.' rest)) (some '.') false
    exact .point ends (later.startsDecimal_eq.trans ends)
  | char c rest noName noDigit noPoint ih =>
    rw [multiplyNumbers_of_none (.inr (takeNumber?_none noDigit noPoint))]
    exact .char noName noDigit noPoint (ih rest le_rfl (single.suffix (List.suffix_cons c rest)) (some c) _)

theorem multiplyGroups_skip (word rest : List Char) :
    multiplyGroups word.length (word ++ rest) = multiplyGroups 0 rest := by
  induction word with
  | nil => rfl
  | cons c word ih => exact ih

/-- Behind a closing parenthesis, a multiplication sign is written before an operand. -/
theorem multiplyGroups_closing (cs : List Char) :
    (∃ d behind, stripLeft cs = d :: behind ∧ startsOperand d = true ∧
      multiplyGroups 0 (')' :: cs) = ')' :: '*' :: multiplyGroups 0 (d :: behind)) ∨
    multiplyGroups 0 (')' :: cs) = ')' :: multiplyGroups 0 cs := by
  rw [multiplyGroups, if_pos (beq_self_eq_true ')')]
  cases stripped : stripLeft cs with
  | nil => exact .inr rfl
  | cons d behind =>
    dsimp only
    split
    next operand =>
      have parted := blanks_append_stripLeft stripped
      have skip : cs.length - (behind.length + 1) = (cs.takeWhile isBlank).length := by
        have lengths := congrArg List.length parted
        rw [List.length_append, List.length_cons] at lengths
        omega
      refine .inl ⟨d, behind, rfl, operand, ?_⟩
      rw [skip, ← multiplyGroups_skip (cs.takeWhile isBlank) (d :: behind), parted]
    · exact .inr rfl

theorem signed_multiplyGroups (s : List Char) (after : Bool) : Signed after s (multiplyGroups 0 s) := by
  have behindWord {word : List Char} (rest : List Char) (each : ∀ c ∈ word, isWordChar c = true) :
      multiplyGroups 0 (word ++ rest) = word ++ multiplyGroups 0 rest := by
    refine multiplyGroups_word (fun c member => ?_) rest
    rintro rfl
    exact absurd (each ')' member) (by decide)
  induction s using front_induction generalizing after with
  | nil => exact .nil
  | number word rest taken ih =>
    have isWord := (isWord_of_takeNumber? taken).imp fun _ => isWordChar_of_isNumeral
    rw [behindWord rest isWord.each]
    exact .number taken (ih rest isWord.length_lt true)
  | name word rest taken ih =>
    have isWord := (isWord_of_takeName? taken).imp fun _ => isWordChar_of_continuesName
    rw [behindWord rest isWord.each]
    exact .name taken (ih rest isWord.length_lt false)
  | point rest ends ih =>
    rw [multiplyGroups_of_ne (by decide)]
    exact .point ends ((ih false).startsDecimal_eq.trans ends)
  | char c rest noName noDigit noPoint ih =>
    by_cases closing : c = ')'
    · subst closing
      rcases multiplyGroups_closing rest with ⟨d, behind, stripped, operand, passed⟩ | passed
      · have suffix : d :: behind <:+ rest := stripped ▸ List.dropWhile_suffix isBlank
        rw [passed]
        exact .char noName noDigit noPoint ((ih _ suffix.length_le false).sign_stripLeft stripped operand)
      · rw [passed]
        exact .char noName noDigit noPoint (ih rest le_rfl _)
    · rw [multiplyGroups_of_ne closing]
      exact .char noName noDigit noPoint (ih rest le_rfl _)

/-- A multiplication sign that is left out may as well be written: a text in which no signed power of ten stands
right before another power of ten is read to the same program with the signs and without them, but for the
positions it records. -/
theorem meaning?_writeMultiplication {text : String} (single : SinglePowers text.toList) :
    meaning? (String.ofList (writeMultiplication text.toList)) = meaning? text := by
  have numbers := signed_multiplyNumbers single none false
  have groups := signed_multiplyGroups (multiplyNumbers none 0 text.toList) false
  calc meaning? (String.ofList (writeMultiplication text.toList))
    _ = meaning? (String.ofList (multiplyNumbers none 0 text.toList)) :=
      (meaning?_signed (by simpa [writeMultiplication] using groups)).symm
    _ = meaning? text := (meaning?_signed (by simpa using numbers)).symm

/-- Here the sign would be put inside the name `e3x`. -/
example : ¬ SinglePowers "1e+5e3x".toList := by
  intro single
  have followed := single _ (List.suffix_refl _) "1e+5".toList "e3x".toList (by decide) (.inl (by decide))
  exact absurd followed (by decide)

end ExactAlgebra.Reader
