import ExactAlgebra.Proofs.Decimal
import ExactAlgebra.Proofs.Radical
import ExactAlgebra.Rational.Decimal
import Mathlib

/-! Decimal text is rounded correctly. What is written is a plain numeral whose value is the number rounded to
the places that it keeps, a half away from zero, unless the digits are too many to be written out. -/
namespace ExactAlgebra

namespace Text

theorem naturalOf_replicate (k : ℕ) : naturalOf (List.replicate k '0') = 0 := by
  induction k with
  | zero => rfl
  | succ k ih =>
    rw [List.replicate_succ', naturalOf_append, ih]
    rfl

theorem naturalOf_replicate_append (k : ℕ) (s : List Char) :
    naturalOf (List.replicate k '0' ++ s) = naturalOf s := by
  rw [naturalOf_append, naturalOf_replicate, naturalOf]

theorem naturalOf_append_replicate (s : List Char) (k : ℕ) :
    naturalOf (s ++ List.replicate k '0') = naturalOf s * 10 ^ k := by
  induction k with
  | zero => simp
  | succ k ih =>
    have zero : decimalValue? '0' = some 0 := by decide
    rw [List.replicate_succ', ← List.append_assoc, naturalOf_append, ih]
    simp only [List.foldl_cons, List.foldl_nil, zero, Option.getD_some]
    ring

/-- Some digit of a positive number is not zero. -/
theorem exists_ne_zero_of_naturalOf_pos {s : List Char} (positive : 0 < naturalOf s) : ∃ c ∈ s, c ≠ '0' := by
  by_contra none
  push Not at none
  rw [List.eq_replicate_of_mem none, naturalOf_replicate] at positive
  exact positive.false

/-- The text of a positive number does not begin with a zero. -/
theorem head_toString_ne_zero {n : ℕ} (positive : 0 < n) : (toString n).toList.head? ≠ some '0' := by
  rw [toList_toString]
  induction n using Nat.strongRecOn with
  | ind n ih =>
    rw [Nat.toDigits_eq_if (by decide)]
    split
    next small => interval_cases n <;> decide
    next large =>
      rw [List.head?_append_of_ne_nil _ Nat.toDigits_ne_nil]
      exact ih (n / 10) (by omega) (by omega)

theorem length_toString {n : ℕ} (positive : 0 < n) : (toString n).length = (Nat.digits 10 n).length := by
  rw [← String.length_toList, toList_toString]
  have written : 0 < (Nat.toDigits 10 n).length := List.length_pos_of_ne_nil Nat.toDigits_ne_nil
  have listed : 0 < (Nat.digits 10 n).length :=
    List.length_pos_of_ne_nil (Nat.digits_ne_nil_iff_ne_zero.mpr positive.ne')
  have same {k : ℕ} (some : 0 < k) : (Nat.toDigits 10 n).length ≤ k ↔ (Nat.digits 10 n).length ≤ k := by
    rw [Nat.length_toDigits_le_iff (by decide) some, Nat.digits_length_le_iff (by decide)]
  exact le_antisymm ((same listed).mpr le_rfl) ((same written).mp le_rfl)

/-- Zeros at the end are what `rdropWhile` takes away. -/
theorem exists_rdropWhile_append_replicate (s : List Char) :
    ∃ k, s.rdropWhile (· == '0') ++ List.replicate k '0' = s := by
  refine ⟨(s.reverse.takeWhile (· == '0')).length, ?_⟩
  have zeros : s.reverse.takeWhile (· == '0') = List.replicate (s.reverse.takeWhile (· == '0')).length '0' :=
    List.eq_replicate_of_mem fun c member => by simpa using List.mem_takeWhile_imp member
  have whole := congrArg List.reverse (List.takeWhile_append_dropWhile (p := (· == '0')) (l := s.reverse))
  rw [List.reverse_append, List.reverse_reverse] at whole
  conv_rhs => rw [← whole, zeros, List.reverse_replicate]
  rfl

end Text

namespace Rational
open Text

/-- Digits, and after a point more digits: without an exponent, without a superfluous zero at either end, and
without a sign before zero. -/
structure Numeral where
  negative : Bool
  whole : List Char
  fraction : List Char
  digits : ∀ c ∈ whole ++ fraction, c.isDigit = true
  nonempty : whole ≠ []
  leading : whole.head? = some '0' → whole = ['0']
  trailing : fraction.getLast? ≠ some '0'
  signed : negative = true → ∃ c ∈ whole ++ fraction, c ≠ '0'

namespace Numeral

def text (m : Numeral) : String :=
  let digits := String.ofList (if m.fraction = [] then m.whole else m.whole ++ '.' :: m.fraction)
  if m.negative then "-" ++ digits else digits

/-- The number that the numeral denotes, by the places of its digits. -/
def value (m : Numeral) : ℚ :=
  let magnitude : ℚ := naturalOf (m.whole ++ m.fraction) / 10 ^ m.fraction.length
  if m.negative then -magnitude else magnitude

def zero : Numeral where
  negative := false
  whole := ['0']
  fraction := []
  digits c member := by
    rw [List.mem_singleton.mp member]
    decide
  nonempty := by decide
  leading _ := rfl
  trailing := by decide
  signed := by decide

/-- The digits of a number, filled up with zeros so that one stands before the last `places`. -/
def padded (units places : ℕ) : List Char :=
  let digits := (toString units).toList
  List.replicate (places + 1 - digits.length) '0' ++ digits

theorem naturalOf_padded (units places : ℕ) : naturalOf (padded units places) = units := by
  rw [padded, naturalOf_replicate_append, naturalOf_toString]

theorem lt_length_padded (units places : ℕ) : places < (padded units places).length := by
  simp only [padded, List.length_append, List.length_replicate]
  omega

theorem isDigit_of_mem_padded {units places : ℕ} {c : Char} (member : c ∈ padded units places) :
    c.isDigit = true := by
  rcases List.mem_append.mp member with filled | own
  · rw [List.eq_of_mem_replicate filled]
    decide
  · exact isDigit_of_mem_toString own

def wholePart (units places : ℕ) : List Char :=
  (padded units places).take ((padded units places).length - places)

def fractionPart (units places : ℕ) : List Char :=
  ((padded units places).drop ((padded units places).length - places)).rdropWhile (· == '0')

/-- What stands before the point begins with a zero only if it is zero. -/
theorem wholePart_leading {units places : ℕ} (positive : 0 < units)
    (leading : (wholePart units places).head? = some '0') : wholePart units places = ['0'] := by
  rcases Nat.lt_or_ge places (toString units).toList.length with long | short
  · have bare : padded units places = (toString units).toList := by
      rw [padded, Nat.sub_eq_zero_of_le long, List.replicate_zero, List.nil_append]
    rw [wholePart, bare, List.head?_take, if_neg (by omega)] at leading
    exact absurd leading (head_toString_ne_zero positive)
  · have single : (padded units places).length - places = 1 := by
      simp only [padded, List.length_append, List.length_replicate]
      omega
    rw [wholePart, single] at leading ⊢
    cases shape : padded units places with
    | nil => simp [shape] at leading
    | cons c s => simpa [shape] using leading

/-- All digits but the zeros at the end stand in the two parts. -/
theorem exists_parts_append (units places : ℕ) :
    ∃ k, wholePart units places ++ fractionPart units places ++ List.replicate k '0' = padded units places ∧
      (fractionPart units places).length + k = places := by
  obtain ⟨k, whole⟩ := exists_rdropWhile_append_replicate
    ((padded units places).drop ((padded units places).length - places))
  refine ⟨k, ?_, ?_⟩
  · rw [List.append_assoc, fractionPart, whole, wholePart, List.take_append_drop]
  · have lengths := congrArg List.length whole
    rw [List.length_append, List.length_replicate, List.length_drop] at lengths
    have := lt_length_padded units places
    rw [fractionPart]
    omega

theorem naturalOf_parts_pos {units : ℕ} (positive : 0 < units) (places : ℕ) :
    0 < naturalOf (wholePart units places ++ fractionPart units places) := by
  obtain ⟨k, whole, -⟩ := exists_parts_append units places
  have value := naturalOf_padded units places
  rw [← whole, naturalOf_append_replicate] at value
  by_contra zero
  simp [show naturalOf (wholePart units places ++ fractionPart units places) = 0 by omega] at value
  omega

/-- The numeral for a positive number of units in the last place. -/
def ofUnits (negative : Bool) {units : ℕ} (positive : 0 < units) (places : ℕ) : Numeral where
  negative := negative
  whole := wholePart units places
  fraction := fractionPart units places
  digits c member := by
    obtain ⟨k, whole, -⟩ := exists_parts_append units places
    exact isDigit_of_mem_padded (whole ▸ List.mem_append_left _ member)
  nonempty := by
    have := lt_length_padded units places
    rw [wholePart, Ne, List.take_eq_nil_iff, not_or, ← List.length_eq_zero_iff]
    omega
  leading := wholePart_leading positive
  trailing := by
    intro last
    have nonempty : fractionPart units places ≠ [] := by
      intro empty
      simp [empty] at last
    rw [List.getLast?_eq_some_getLast nonempty, Option.some_inj] at last
    exact List.rdropWhile_last_not _ _ nonempty (beq_iff_eq.mpr last)
  signed _ := exists_ne_zero_of_naturalOf_pos (naturalOf_parts_pos positive places)

variable {units : ℕ} (positive : 0 < units) (negative : Bool) (places : ℕ)

theorem text_ofUnits : (ofUnits negative positive places).text =
    if negative then "-" ++ placePoint units places else placePoint units places := by
  have written : placePoint units places = String.ofList (if fractionPart units places = [] then
      wholePart units places else wholePart units places ++ '.' :: fractionPart units places) := by
    simp only [← List.isEmpty_iff]
    rfl
  rw [written]
  rfl

theorem value_ofUnits : (ofUnits negative positive places).value =
    if negative then -(units / 10 ^ places : ℚ) else units / 10 ^ places := by
  obtain ⟨k, whole, length⟩ := exists_parts_append units places
  have magnitude : (naturalOf (wholePart units places ++ fractionPart units places) : ℚ) /
      10 ^ (fractionPart units places).length = units / 10 ^ places := by
    have sized := naturalOf_append_replicate (wholePart units places ++ fractionPart units places) k
    rw [whole, naturalOf_padded] at sized
    calc (naturalOf (wholePart units places ++ fractionPart units places) : ℚ) /
            10 ^ (fractionPart units places).length
        = (naturalOf (wholePart units places ++ fractionPart units places) * 10 ^ k : ℕ) /
            10 ^ ((fractionPart units places).length + k) := by
          push_cast
          rw [pow_add, mul_div_mul_right _ _ (by positivity)]
      _ = units / 10 ^ places := by rw [← sized, length]
  simp only [value, ofUnits, magnitude]

end Numeral

/-- The nearest integer, a half away from zero. -/
def roundAway (x : ℚ) : ℤ := if x < 0 then -round (-x) else round x

theorem abs_roundAway_sub_le (x : ℚ) : |(roundAway x : ℚ) - x| ≤ 1 / 2 := by
  rw [roundAway]
  split
  · have near := abs_sub_round (-x)
    push_cast
    rwa [show -((round (-x) : ℤ) : ℚ) - x = -x - round (-x) by ring]
  · rw [abs_sub_comm]
    exact abs_sub_round x

theorem roundAway_intCast (n : ℤ) : roundAway n = n := by
  rw [roundAway]
  split
  · rw [← Int.cast_neg, round_intCast, neg_neg]
  · exact round_intCast n

theorem round_abs_mul (a : ℚ) (places : ℕ) :
    round (|a| * 10 ^ places) = scaledUp a.num.natAbs a.den places := by
  have below : (a.den : ℚ) ≠ 0 := Nat.cast_ne_zero.mpr a.den_nz
  have halved : |a| * 10 ^ places + 1 / 2 =
      ((2 * a.num.natAbs * 10 ^ places + a.den : ℕ) : ℤ) / ((2 * a.den : ℕ) : ℚ) := by
    rw [abs_eq_natAbs_div]
    generalize a.num.natAbs = n
    push_cast
    field_simp
  rw [round_eq, halved, Rat.floor_intCast_div_natCast]
  norm_cast

theorem roundAway_mul (a : ℚ) (places : ℕ) : roundAway (a * 10 ^ places) =
    if a < 0 then -(scaledUp a.num.natAbs a.den places : ℤ) else scaledUp a.num.natAbs a.den places := by
  have scale : (0 : ℚ) < 10 ^ places := by positivity
  simp only [roundAway, mul_neg_iff, scale, scale.not_gt, and_false, and_true, false_or]
  split
  next negative => rw [← neg_mul, ← abs_of_neg negative, round_abs_mul]
  next nonnegative =>
    rw [← round_abs_mul, abs_of_nonneg (not_lt.mp nonnegative)]

theorem natAbs_roundAway_mul (a : ℚ) (places : ℕ) :
    (roundAway (a * 10 ^ places)).natAbs = scaledUp a.num.natAbs a.den places := by
  rw [roundAway_mul]
  split <;> simp

theorem le_scaledUp {n d places m : ℕ} (positive : 0 < d) (reached : m * d ≤ n * 10 ^ places) :
    m ≤ scaledUp n d places := by
  have power : Nat.pow 10 places = 10 ^ places := rfl
  rw [scaledUp, power, Nat.le_div_iff_mul_le (by omega), mul_assoc 2]
  nlinarith

/-- How many digits after the point a number keeps: as many as the digits before the point leave of the
precision, and below one as many as the precision says after the zeros behind the point. -/
inductive KeepsPlaces (precision : ℤ) : ℚ → ℤ → Prop
  | zero : KeepsPlaces precision 0 0
  | whole {a : ℚ} (above : 1 ≤ |a|) : KeepsPlaces precision a (max (precision - (Nat.digits 10 ⌊|a|⌋₊).length) 0)
  | fraction {a : ℚ} {zeros : ℕ} (below : |a| * 10 ^ zeros < 1) (reached : 1 ≤ |a| * 10 ^ (zeros + 1)) :
    KeepsPlaces precision a (precision + zeros)

theorem leadingZeros_bounds {n d fuel : ℕ} (below : n < d) (enough : d ≤ n * 10 ^ (fuel + 1)) :
    n * 10 ^ leadingZeros n d fuel < d ∧ d ≤ n * 10 ^ (leadingZeros n d fuel + 1) := by
  induction fuel generalizing n with
  | zero => exact ⟨by simpa [leadingZeros] using below, by simpa [leadingZeros] using enough⟩
  | succ fuel ih =>
    rw [leadingZeros]
    split
    next more =>
      have next := ih more (by rwa [mul_assoc, ← pow_succ'])
      rw [mul_assoc, ← pow_succ', mul_assoc, ← pow_succ'] at next
      exact next
    next last => exact ⟨by simpa using below, by simpa using last⟩

theorem leadingZeros_fuel {n d : ℕ} (positive : 0 < n) : d ≤ n * 10 ^ (bitLength d + 1) := by
  calc d ≤ 2 ^ bitLength d := (lt_two_pow_bitLength d).le
    _ ≤ 10 ^ bitLength d := Nat.pow_le_pow_left (by decide) _
    _ ≤ 10 ^ (bitLength d + 1) := Nat.pow_le_pow_right (by decide) (Nat.le_succ _)
    _ ≤ n * 10 ^ (bitLength d + 1) := Nat.le_mul_of_pos_left _ positive

theorem floor_abs (a : ℚ) : ⌊|a|⌋₊ = a.num.natAbs / a.den := by
  rw [abs_eq_natAbs_div, Nat.floor_div_eq_div]

/-- Below one: with a precision of at least one the kept places reach beyond the zeros. -/
theorem fractionDigits_small {a : ℚ} (nonzero : a ≠ 0) (small : a.num.natAbs < a.den) (precision : ℕ) :
    ∃ places : ℕ, fractionDigits a (precision + 1 : ℕ) = places ∧ KeepsPlaces (precision + 1 : ℕ) a places ∧
      10 ^ precision * a.den ≤ a.num.natAbs * 10 ^ places := by
  have positive : 0 < a.num.natAbs := Int.natAbs_pos.mpr (Rat.num_ne_zero.mpr nonzero)
  have below : (0 : ℚ) < a.den := Nat.cast_pos.mpr a.den_pos
  obtain ⟨before, reached⟩ := leadingZeros_bounds small (leadingZeros_fuel positive)
  have digits (p : ℤ) : fractionDigits a p = leadingZeros a.num.natAbs a.den (bitLength a.den) + p := by
    simp only [fractionDigits, Nat.div_eq_of_lt small, if_true]
  generalize leadingZeros a.num.natAbs a.den (bitLength a.den) = zeros at before reached digits
  refine ⟨precision + 1 + zeros, ?_, ?_, ?_⟩
  · rw [digits]
    push_cast
    ring
  · rw [Nat.cast_add]
    refine .fraction ?_ ?_
    · rw [abs_eq_natAbs_div, div_mul_eq_mul_div, div_lt_one below]
      exact_mod_cast before
    · rw [abs_eq_natAbs_div, div_mul_eq_mul_div, one_le_div below]
      exact_mod_cast reached
  · calc 10 ^ precision * a.den ≤ 10 ^ precision * (a.num.natAbs * 10 ^ (zeros + 1)) :=
          Nat.mul_le_mul_left _ reached
      _ = a.num.natAbs * 10 ^ (precision + 1 + zeros) := by ring

/-- From one on: the digits before the point count, but are never cut. -/
theorem fractionDigits_large {a : ℚ} (large : a.den ≤ a.num.natAbs) (precision : ℕ) :
    ∃ places : ℕ, fractionDigits a (precision + 1 : ℕ) = places ∧ KeepsPlaces (precision + 1 : ℕ) a places ∧
      10 ^ precision * a.den ≤ a.num.natAbs * 10 ^ places := by
  have whole : 0 < a.num.natAbs / a.den := Nat.div_pos large a.den_pos
  have above : 1 ≤ |a| := by
    rw [abs_eq_natAbs_div, one_le_div (Nat.cast_pos.mpr a.den_pos)]
    exact_mod_cast large
  have digits (p : ℤ) : fractionDigits a p = max (p - (Nat.digits 10 (a.num.natAbs / a.den)).length) 0 := by
    simp only [fractionDigits, whole.ne', if_false, length_toString whole]
  have keeps : KeepsPlaces (precision + 1 : ℕ) a _ := .whole above
  rw [floor_abs] at keeps
  have filled : 10 ^ (Nat.digits 10 (a.num.natAbs / a.den)).length ≤ 10 * (a.num.natAbs / a.den) :=
    Nat.base_pow_length_digits_le 10 _ (by decide) whole.ne'
  generalize (Nat.digits 10 (a.num.natAbs / a.den)).length = count at digits keeps filled
  refine ⟨precision + 1 - count, ?_, ?_, ?_⟩
  · rw [digits]
    omega
  · convert keeps using 1
    omega
  · refine Nat.le_of_mul_le_mul_left ?_ (by decide : 0 < 10)
    calc 10 * (10 ^ precision * a.den) = 10 ^ (precision + 1) * a.den := by ring
      _ ≤ 10 ^ (count + (precision + 1 - count)) * a.den :=
          Nat.mul_le_mul_right _ (Nat.pow_le_pow_right (by decide) (by omega))
      _ = 10 ^ count * a.den * 10 ^ (precision + 1 - count) := by ring
      _ ≤ 10 * (a.num.natAbs / a.den) * a.den * 10 ^ (precision + 1 - count) :=
          Nat.mul_le_mul_right _ (Nat.mul_le_mul_right _ filled)
      _ = 10 * (a.num.natAbs / a.den * a.den * 10 ^ (precision + 1 - count)) := by ring
      _ ≤ 10 * (a.num.natAbs * 10 ^ (precision + 1 - count)) :=
          Nat.mul_le_mul_left _ (Nat.mul_le_mul_right _ (Nat.div_mul_le_self _ _))

/-- With a precision of at least one, the kept places are not negative, and the digits kept are at least as
many as the precision says. -/
theorem fractionDigits_keeps {a : ℚ} (nonzero : a ≠ 0) (precision : ℕ) :
    ∃ places : ℕ, fractionDigits a (precision + 1 : ℕ) = places ∧ KeepsPlaces (precision + 1 : ℕ) a places ∧
      10 ^ precision * a.den ≤ a.num.natAbs * 10 ^ places :=
  (Nat.lt_or_ge a.num.natAbs a.den).elim (fractionDigits_small nonzero · precision)
    (fractionDigits_large · precision)

theorem digitBound_eq : digitBound = 10 ^ digitLimit := by
  unfold digitBound
  generalize digitLimit = limit
  rfl

/-- A number can be written out exactly if its units in the last place are not too many. -/
theorem isPrintable_iff {a : ℚ} {precision places : ℕ} (nonzero : a ≠ 0)
    (keeps : fractionDigits a (precision + 1 : ℕ) = places)
    (filled : 10 ^ precision * a.den ≤ a.num.natAbs * 10 ^ places) :
    isPrintable a (precision + 1 : ℕ) = true ↔ scaledUp a.num.natAbs a.den places < digitBound := by
  have whole : a.num.natAbs / a.den ≤ scaledUp a.num.natAbs a.den places :=
    le_scaledUp a.den_pos ((Nat.div_mul_le_self _ _).trans (Nat.le_mul_of_pos_right _ (by positivity)))
  have many : 10 ^ precision ≤ scaledUp a.num.natAbs a.den places := le_scaledUp a.den_pos filled
  have natural : (places : ℤ) = Int.ofNat places := rfl
  rw [isPrintable, keeps, natural]
  simp only [nonzero, decide_false, Bool.false_or, Bool.and_eq_true, decide_eq_true_eq]
  refine ⟨And.right, fun short => ⟨⟨?_, whole.trans_lt short⟩, short⟩⟩
  rw [digitBound_eq] at short
  have := (Nat.pow_lt_pow_iff_right (by decide : 1 < 10)).mp (many.trans_lt short)
  omega

theorem decimal_eq {a : ℚ} {precision : ℤ} {places : ℕ} (nonzero : a ≠ 0)
    (keeps : fractionDigits a precision = places) : decimal a precision =
      if a < 0 then "-" ++ placePoint (scaledUp a.num.natAbs a.den places) places
        else placePoint (scaledUp a.num.natAbs a.den places) places := by
  have natural : (places : ℤ) = Int.ofNat places := rfl
  simp only [decimal, if_neg nonzero, keeps, natural, Rat.num_neg]

theorem decimalText_eq {a : ℚ} {precision : Datum} {p : ℤ} (nonzero : a ≠ 0)
    (integral : precision.integer = .ok p) : decimalText a precision = decimalTo a p := by
  cases precision with
  | real => cases integral
  | _ =>
    simp only [decimalText, nonzero, integral]
    rfl

/-- The numeral denotes the number rounded to so many places, a half away from zero: it is off by half a unit
in the last place at most, and exact if no more places are needed. -/
structure IsRounding (a : ℚ) (places : ℕ) (numeral : Numeral) : Prop where
  rounded : numeral.value = roundAway (a * 10 ^ places) / 10 ^ places
  near : |numeral.value - a| ≤ 1 / 2 / 10 ^ places
  exact : ∀ units : ℤ, a * 10 ^ places = units → numeral.value = a

theorem isRounding_of_value {a : ℚ} {places : ℕ} {numeral : Numeral}
    (rounded : numeral.value = roundAway (a * 10 ^ places) / 10 ^ places) : IsRounding a places numeral := by
  have scale : (0 : ℚ) < 10 ^ places := by positivity
  refine ⟨rounded, ?_, fun units whole => ?_⟩
  · have off : numeral.value - a = (roundAway (a * 10 ^ places) - a * 10 ^ places) / 10 ^ places := by
      rw [rounded, sub_div, mul_div_cancel_right₀ _ scale.ne']
    rw [off, abs_div, abs_of_pos scale]
    exact div_le_div_of_nonneg_right (abs_roundAway_sub_le _) scale.le
  · rw [rounded, whole, roundAway_intCast, ← whole, mul_div_cancel_right₀ _ scale.ne']

/-- The units of a rounded number, with the sign and the point, make a numeral. -/
theorem exists_isRounding {a : ℚ} {places : ℕ} (positive : 0 < scaledUp a.num.natAbs a.den places) :
    ∃ numeral : Numeral, (if a < 0 then "-" ++ placePoint (scaledUp a.num.natAbs a.den places) places
        else placePoint (scaledUp a.num.natAbs a.den places) places) = numeral.text ∧
      IsRounding a places numeral := by
  refine ⟨.ofUnits (decide (a < 0)) positive places, ?_, isRounding_of_value ?_⟩
  · simp only [Numeral.text_ofUnits, decide_eq_true_eq]
  · simp only [Numeral.value_ofUnits, decide_eq_true_eq, roundAway_mul]
    split
    · push_cast
      rw [neg_div]
    · push_cast
      rfl

/-- The text of a number to a precision of at least one is a plain numeral for the number rounded to the places
that it keeps, unless its units in the last of them are too many to be written out. -/
theorem decimalText_rounds (a : ℚ) {precision : Datum} {p : ℤ} (integral : precision.integer = .ok p)
    (positive : 1 ≤ p) : ∃ places : ℕ, KeepsPlaces p a places ∧
      if digitBound ≤ (roundAway (a * 10 ^ places)).natAbs then decimalText a precision = .error .unsupported
      else ∃ numeral : Numeral, decimalText a precision = .ok numeral.text ∧ IsRounding a places numeral := by
  rcases eq_or_ne a 0 with rfl | nonzero
  · refine ⟨0, .zero, ?_⟩
    have none : (0 : ℚ) * 10 ^ 0 = ((0 : ℤ) : ℚ) := by norm_num
    rw [none, roundAway_intCast, if_neg (by simp [digitBound_eq])]
    exact ⟨.zero, rfl, isRounding_of_value (by rw [none, roundAway_intCast]; rfl)⟩
  obtain ⟨q, rfl⟩ : ∃ q : ℕ, p = (q + 1 : ℕ) := ⟨(p - 1).toNat, by omega⟩
  obtain ⟨places, digits, keeps, filled⟩ := fractionDigits_keeps nonzero q
  have printable := isPrintable_iff nonzero digits filled
  refine ⟨places, keeps, ?_⟩
  rw [natAbs_roundAway_mul, decimalText_eq nonzero integral, decimalTo, decimal_eq nonzero digits]
  generalize digitBound = bound at printable ⊢
  by_cases short : scaledUp a.num.natAbs a.den places < bound
  · have some : 0 < scaledUp a.num.natAbs a.den places :=
      (Nat.pow_pos (by decide : 0 < 10)).trans_le (le_scaledUp a.den_pos filled)
    obtain ⟨numeral, text, rounding⟩ := exists_isRounding some
    rw [if_neg short.not_ge, if_pos (printable.mpr short)]
    exact ⟨numeral, congrArg Except.ok text, rounding⟩
  · rw [if_pos (Nat.not_lt.mp short), if_neg (printable.not.mpr short)]

/-- A carry runs through to the digits before the point. -/
theorem decimalText_carries : ∃ places : ℕ, KeepsPlaces 3 (-2499 / 2500) places ∧
    if digitBound ≤ (roundAway (-2499 / 2500 * 10 ^ places)).natAbs then
      decimalText (-2499 / 2500) (.whole 3) = .error .unsupported
    else ∃ numeral : Numeral, decimalText (-2499 / 2500) (.whole 3) = .ok numeral.text ∧
      IsRounding (-2499 / 2500) places numeral :=
  decimalText_rounds (-2499 / 2500) rfl (by decide)

example : (decimalText (-2499 / 2500) (.whole 3)).toOption = some "-1" := by decide +kernel

/-- A third to five thousand digits is not written out. -/
theorem third_not_printable : ¬ ∃ numeral : Numeral, decimalText (1 / 3) (.whole 5000) = .ok numeral.text := by
  rintro ⟨numeral, written⟩
  have refused : decimalText (1 / 3) (.whole 5000) = .error .unsupported := by decide +kernel
  rw [refused] at written
  cases written

end Rational
end ExactAlgebra
