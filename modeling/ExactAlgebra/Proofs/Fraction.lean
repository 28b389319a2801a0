import ExactAlgebra.Proofs.Precedence
import Mathlib

/-! Terms as phrases. A term with its coefficient left open is a list of factors above the line and
one below it; under a coefficient it becomes a phrase, and the texts of terms in a row are the text
of one phrase. -/
namespace ExactAlgebra.Reader
open Text

def Phrase.text (phrase : Phrase) : String := String.ofList phrase.chars

/-- A phrase that can stand as a factor: its names are identifiers, and it needs no parentheses
before or behind a multiplication sign. -/
structure Phrase.IsFactor (phrase : Phrase) : Prop where
  spelled : phrase.Spelled
  fits : phrase.Fits
  binds : 6 ≤ phrase.level

structure Fraction where
  above : List Phrase
  below : List Phrase

def chain (first : Phrase) (rest : List Phrase) : Phrase := rest.foldl (.binary .times) first

/-- A whole power of a base; the first power is not written. -/
def powered (base : Phrase) (p : Rat) : Phrase :=
  if p = 1 then base else .binary .raised base (.number p.num.toNat)

namespace Fraction

/-- What is written above the line for a coefficient of size `m`. -/
def numerator (fraction : Fraction) (m : Rat) : List Phrase :=
  (if m.num ≠ 1 || fraction.above.isEmpty then [.number m.num.toNat] else []) ++ fraction.above

/-- What is written below the line for a coefficient of size `m`. -/
def denominator (fraction : Fraction) (m : Rat) : List Phrase :=
  if m.den ≠ 1 then .number m.den :: fraction.below else fraction.below

/-- A product with a sign in front of its first factor. -/
def signed (negative : Bool) : List Phrase → Phrase
  | [] => .number 0
  | first :: rest => chain (if negative then .negative first else first) rest

def quotient (top : Phrase) : List Phrase → Phrase
  | [] => top
  | [factor] => .binary .divided top factor
  | factor :: factors => .binary .divided top (.group (chain factor factors))

def phrase (fraction : Fraction) (c : Rat) : Phrase :=
  quotient (signed (decide (c < 0)) (fraction.numerator (Rational.abs c)))
    (fraction.denominator (Rational.abs c))

def entry (fraction : Fraction) : Entry :=
  .fraction (fraction.above.map Phrase.text) (fraction.below.map Phrase.text)

def IsProper (fraction : Fraction) : Prop :=
  (∀ f ∈ fraction.above, f.IsFactor) ∧ ∀ f ∈ fraction.below, f.IsFactor

def value (ρ : String → ℚ) (fraction : Fraction) : ℚ :=
  (fraction.above.map (Phrase.value ρ)).prod / (fraction.below.map (Phrase.value ρ)).prod

end Fraction

/-- Terms in a row, each with its coefficient. -/
def total : List (Rat × Fraction) → Phrase
  | [] => .number 0
  | (c, first) :: rest =>
    rest.foldl (fun sum (d, term) =>
      if d < 0 then .binary .minus sum (term.phrase (-d)) else .binary .plus sum (term.phrase d))
      (first.phrase c)

theorem chars_chain (first : Phrase) (rest : List Phrase) :
    (chain first rest).chars = first.chars ++ rest.flatMap fun f => '*' :: f.chars := by
  induction rest generalizing first with
  | nil => simp [chain]
  | cons f rest ih =>
    have step := ih (.binary .times first f)
    simp only [chain, List.foldl_cons] at step ⊢
    rw [step]
    simp [Phrase.chars, Sign.char]

theorem value_chain (ρ : String → ℚ) (first : Phrase) (rest : List Phrase) :
    (chain first rest).value ρ = first.value ρ * (rest.map (Phrase.value ρ)).prod := by
  induction rest generalizing first with
  | nil => simp [chain]
  | cons f rest ih =>
    have step := ih (.binary .times first f)
    simp only [chain, List.foldl_cons] at step ⊢
    rw [step]
    simp only [Phrase.value, List.map_cons, List.prod_cons]
    ring

/-- A product of factors after a first phrase that may stand before a multiplication sign. -/
theorem chain_fits {first : Phrase} {rest : List Phrase} (spelled : first.Spelled)
    (fits : first.Fits) (binds : 4 ≤ first.level) (factors : ∀ f ∈ rest, f.IsFactor) :
    (chain first rest).Spelled ∧ (chain first rest).Fits ∧ 4 ≤ (chain first rest).level := by
  induction rest generalizing first with
  | nil => exact ⟨spelled, fits, binds⟩
  | cons f rest ih =>
    have factor := factors f List.mem_cons_self
    refine @ih (.binary .times first f) ⟨spelled, factor.spelled⟩
      ⟨fits, factor.fits, binds, le_trans (by decide) factor.binds⟩ (le_refl 4) fun g later => ?_
    exact factors g (List.mem_cons_of_mem _ later)

/-- Texts with a separator between them. -/
theorem toList_intercalate_cons (separator first : String) (rest : List String) :
    (separator.intercalate (first :: rest)).toList =
      first.toList ++ rest.flatMap fun s => separator.toList ++ s.toList := by
  rw [String.toList_intercalate]
  induction rest generalizing first with
  | nil => simp
  | cons s rest ih =>
    have step := ih s
    simp only [List.map_cons, List.flatMap_cons, List.intercalate] at step ⊢
    rw [List.intersperse_cons_cons, List.flatten_cons, List.flatten_cons, step, List.append_assoc]

/-- The texts of phrases with signs between them. -/
theorem toList_intercalate_text (first : Phrase) (rest : List Phrase) :
    (String.intercalate "*" ((first :: rest).map Phrase.text)).toList =
      first.chars ++ rest.flatMap fun f => '*' :: f.chars := by
  rw [List.map_cons, toList_intercalate_cons, Phrase.text, String.toList_ofList, List.flatMap_map]
  simp [Phrase.text]

namespace Fraction

theorem numerator_ne_nil (fraction : Fraction) (m : Rat) : fraction.numerator m ≠ [] := by
  unfold numerator
  cases fraction.above <;> simp

theorem chars_signed (negative : Bool) {factors : List Phrase} (some : factors ≠ []) :
    (signed negative factors).chars =
      (if negative then "-" else "").toList ++
        (String.intercalate "*" (factors.map Phrase.text)).toList := by
  cases factors with
  | nil => exact absurd rfl some
  | cons first rest =>
    rw [signed, chars_chain, toList_intercalate_text]
    cases negative <;> simp [Phrase.chars]

theorem chars_quotient (top : Phrase) (factors : List Phrase) :
    (quotient top factors).chars =
      top.chars ++ (belowText (factors.map Phrase.text)).toList := by
  match factors with
  | [] => simp [quotient, belowText]
  | [factor] => simp [quotient, belowText, Phrase.chars, Sign.char, Phrase.text]
  | first :: second :: rest =>
    have inside := toList_intercalate_text first (second :: rest)
    simp only [quotient, Phrase.chars, Sign.char, chars_chain, List.map_cons, belowText,
      String.toList_append] at inside ⊢
    rw [inside]
    simp

theorem toString_toNat {n : Int} (nonneg : 0 ≤ n) : toString n.toNat = toString n := by
  obtain ⟨m, rfl⟩ := Int.eq_ofNat_of_zero_le nonneg
  rfl

theorem abs_num_nonneg (c : Rat) : 0 ≤ (Rational.abs c).num := by
  rw [Rat.num_nonneg, Rational.abs]
  split
  next negative => exact neg_nonneg.mpr negative.le
  next other => exact not_lt.mp other

/-- A fraction is written as its phrase. -/
theorem text_entry (fraction : Fraction) (c : Rat) :
    fraction.entry.text c = (fraction.phrase c).text := by
  have shown : toString (Rational.abs c).num.toNat = toString (Rational.abs c).num :=
    toString_toNat (abs_num_nonneg c)
  have number (n : Nat) : (Phrase.number n).text = toString n := by
    rw [Phrase.text, Phrase.chars, String.ofList_toList]
  have top : (fraction.numerator (Rational.abs c)).map Phrase.text =
      (if (Rational.abs c).num ≠ 1 || (fraction.above.map Phrase.text).isEmpty
        then [toString (Rational.abs c).num] else []) ++ fraction.above.map Phrase.text := by
    rw [numerator, List.map_append, List.isEmpty_map]
    congr 1
    split <;> simp [number, shown]
  have bottom : (fraction.denominator (Rational.abs c)).map Phrase.text =
      if (Rational.abs c).den ≠ 1 then
        toString (Rational.abs c).den :: fraction.below.map Phrase.text
      else fraction.below.map Phrase.text := by
    rw [denominator]
    split <;> simp [number]
  apply String.toList_inj.mp
  rw [Phrase.text, String.toList_ofList, phrase, chars_quotient,
    chars_signed _ (fraction.numerator_ne_nil _), top, bottom, entry, Entry.text]
  simp only [String.toList_append, decide_eq_true_eq]

/-- A number is written as a fraction without factors. -/
theorem text_number (c : Rat) : Entry.number.text c = (Entry.fraction [] []).text c := by
  have negated (n : Nat) (positive : 0 < n) : toString (-(n : Int)) = "-" ++ toString n := by
    obtain ⟨m, rfl⟩ := Nat.exists_eq_add_of_lt positive
    rfl
  have whole : toString c.num =
      (if c < 0 then "-" else "") ++ toString (Rational.abs c).num := by
    rw [Rational.abs]
    split
    next negative =>
      have below : c.num < 0 := Rat.num_neg.mpr negative
      obtain ⟨n, same⟩ := Int.eq_ofNat_of_zero_le (neg_nonneg.mpr below.le)
      have digits := negated n (by omega)
      rw [← same, neg_neg] at digits
      rw [digits, Rat.neg_num, same]
      rfl
    next => simp
  have den : (Rational.abs c).den = c.den := by
    rw [Rational.abs]
    split <;> simp
  simp only [Entry.text, Rational.text, List.isEmpty_nil, Bool.or_true, if_true, List.append_nil,
    den, whole]
  by_cases integral : c.den = 1
  · simp [integral, belowText, String.intercalate_singleton]
  · simp [integral, belowText, String.append_assoc, String.intercalate_singleton]

theorem abs_neg (c : Rat) : Rational.abs (-c) = Rational.abs c := by
  simp only [Rational.abs, neg_neg]
  rcases lt_trichotomy c 0 with negative | rfl | positive
  · rw [if_neg (by linarith), if_pos negative]
  · simp
  · rw [if_pos (by linarith), if_neg (by linarith)]

/-- Under a negative coefficient a minus sign stands in front. -/
theorem chars_phrase_of_neg (fraction : Fraction) {c : Rat} (negative : c < 0) :
    (fraction.phrase c).chars = '-' :: (fraction.phrase (-c)).chars := by
  have positive : ¬ -c < 0 := by linarith
  rw [phrase, phrase, chars_quotient, chars_quotient, abs_neg,
    chars_signed _ (fraction.numerator_ne_nil _), chars_signed _ (fraction.numerator_ne_nil _)]
  simp [negative, positive]

theorem isFactor_number (n : Nat) : (Phrase.number n).IsFactor :=
  ⟨trivial, trivial, show (6 : Int) ≤ 7 by decide⟩

theorem isFactor_numerator {fraction : Fraction} (proper : fraction.IsProper) (m : Rat) :
    ∀ f ∈ fraction.numerator m, f.IsFactor := by
  intro f member
  rcases List.mem_append.mp member with number | above
  · split at number
    · obtain rfl := List.mem_singleton.mp number
      exact isFactor_number _
    · cases number
  · exact proper.1 f above

theorem isFactor_denominator {fraction : Fraction} (proper : fraction.IsProper) (m : Rat) :
    ∀ f ∈ fraction.denominator m, f.IsFactor := by
  intro f member
  rw [denominator] at member
  split at member
  · rcases List.mem_cons.mp member with rfl | below
    · exact isFactor_number _
    · exact proper.2 f below
  · exact proper.2 f member

/-- A fraction can stand as a term. -/
theorem phrase_fits {fraction : Fraction} (proper : fraction.IsProper) (c : Rat) :
    (fraction.phrase c).Spelled ∧ (fraction.phrase c).Fits ∧ 4 ≤ (fraction.phrase c).level := by
  have above := isFactor_numerator proper (Rational.abs c)
  have below := isFactor_denominator proper (Rational.abs c)
  have top : (signed (decide (c < 0)) (fraction.numerator (Rational.abs c))).Spelled ∧
      (signed (decide (c < 0)) (fraction.numerator (Rational.abs c))).Fits ∧
      4 ≤ (signed (decide (c < 0)) (fraction.numerator (Rational.abs c))).level := by
    generalize fraction.numerator (Rational.abs c) = factors at above
    cases factors with
    | nil => exact ⟨trivial, trivial, (isFactor_number 0).binds.trans' (by decide)⟩
    | cons first rest =>
      have factor := above first List.mem_cons_self
      have others : ∀ f ∈ rest, f.IsFactor := fun f later => above f (List.mem_cons_of_mem _ later)
      rw [signed]
      split
      · exact chain_fits factor.spelled ⟨factor.fits, le_trans (by decide) factor.binds⟩
          (show (4 : Int) ≤ 5 by decide) others
      · exact chain_fits factor.spelled factor.fits (le_trans (by decide) factor.binds) others
  obtain ⟨spelled, fits, binds⟩ := top
  rw [phrase]
  generalize fraction.denominator (Rational.abs c) = factors at below
  match factors with
  | [] => exact ⟨spelled, fits, binds⟩
  | [factor] =>
    have proper := below factor List.mem_cons_self
    exact ⟨⟨spelled, proper.spelled⟩,
      ⟨fits, proper.fits, binds, le_trans (by decide) proper.binds⟩, le_refl 4⟩
  | first :: second :: rest =>
    have factor := below first List.mem_cons_self
    obtain ⟨spelledBelow, fitsBelow, _⟩ := chain_fits factor.spelled factor.fits
      (le_trans (by decide) factor.binds) fun f later => below f (List.mem_cons_of_mem _ later)
    exact ⟨⟨spelled, spelledBelow⟩, ⟨fits, fitsBelow, binds, show (5 : Int) ≤ 7 by decide⟩,
      le_refl 4⟩

theorem value_signed (ρ : String → ℚ) (negative : Bool) {factors : List Phrase}
    (some : factors ≠ []) :
    (signed negative factors).value ρ =
      (if negative then -1 else 1) * (factors.map (Phrase.value ρ)).prod := by
  cases factors with
  | nil => exact absurd rfl some
  | cons first rest =>
    rw [signed, value_chain]
    cases negative <;> simp [Phrase.value]

theorem value_quotient (ρ : String → ℚ) (top : Phrase) (factors : List Phrase) :
    (quotient top factors).value ρ = top.value ρ / (factors.map (Phrase.value ρ)).prod := by
  match factors with
  | [] => simp [quotient]
  | [factor] => simp [quotient, Phrase.value]
  | first :: second :: rest =>
    simp only [quotient, Phrase.value, value_chain, List.map_cons, List.prod_cons]

/-- A number is its sign times its size. -/
theorem sign_mul_abs (c : Rat) :
    (if decide (c < 0) = true then -1 else 1) * Rational.abs c = c := by
  rw [Rational.abs]
  by_cases negative : c < 0 <;> simp [negative]

/-- A fraction has the value of its coefficient times that of its factors. -/
theorem value_phrase (ρ : String → ℚ) (fraction : Fraction) (c : Rat) :
    (fraction.phrase c).value ρ = c * fraction.value ρ := by
  have top : ((fraction.numerator (Rational.abs c)).map (Phrase.value ρ)).prod =
      (Rational.abs c).num * (fraction.above.map (Phrase.value ρ)).prod := by
    have size : ((Rational.abs c).num.toNat : ℚ) = (Rational.abs c).num := by
      exact_mod_cast congrArg (Int.cast : Int → ℚ) (Int.toNat_of_nonneg (abs_num_nonneg c))
    rw [numerator, List.map_append, List.prod_append]
    congr 1
    split
    · simp [Phrase.value, size]
    next one =>
      have unit : (Rational.abs c).num = 1 := by
        simp only [Bool.or_eq_true, not_or, decide_eq_true_eq, not_not] at one
        exact one.1
      simp [unit]
  have bottom : ((fraction.denominator (Rational.abs c)).map (Phrase.value ρ)).prod =
      (Rational.abs c).den * (fraction.below.map (Phrase.value ρ)).prod := by
    rw [denominator]
    split
    · simp [Phrase.value]
    next one =>
      have unit : (Rational.abs c).den = 1 := not_not.mp one
      simp [unit]
  rw [phrase, value_quotient, value_signed ρ _ (fraction.numerator_ne_nil _), top, bottom,
    ← mul_assoc, mul_div_mul_comm, mul_div_assoc, Rat.num_div_den, sign_mul_abs, value]

end Fraction

/-- A factor begins with something other than a sign. -/
theorem Phrase.IsFactor.head {phrase : Phrase} (factor : phrase.IsFactor) :
    ∃ c rest, phrase.chars = c :: rest ∧ c ≠ '-' := by
  induction phrase with
  | number n =>
    cases shape : (toString n).toList with
    | nil => exact absurd shape (toList_toString_ne_nil n)
    | cons c rest =>
      refine ⟨c, rest, shape, ?_⟩
      rintro rfl
      exact head_toString_ne_minus n rest shape
  | name text =>
    obtain ⟨c, rest, shape, starts, _⟩ := identifier_chars factor.spelled
    refine ⟨c, rest, shape, ?_⟩
    rintro rfl
    exact absurd starts (by decide)
  | negative a => exact absurd factor.binds (show ¬ (6 : Int) ≤ 5 by decide)
  | binary sign a b ihA =>
    have power : 6 ≤ leftLevel sign := le_trans factor.binds (level_le_leftLevel sign)
    obtain ⟨c, rest, shape, other⟩ := ihA ⟨factor.spelled.1, factor.fits.1,
      le_trans power factor.fits.2.2.1⟩
    exact ⟨c, rest ++ sign.char :: b.chars, by rw [chars, shape, List.cons_append], other⟩
  | group a => exact ⟨'(', a.chars ++ [')'], rfl, by decide⟩

/-- A fraction begins with a minus sign exactly when its coefficient is negative. -/
theorem startsWith_phrase {fraction : Fraction} (proper : fraction.IsProper) (c : Rat) :
    (fraction.phrase c).text.startsWith '-' = decide (c < 0) := by
  rw [String.startsWith_char_eq_head?, Phrase.text, String.toList_ofList]
  by_cases negative : c < 0
  · simp [fraction.chars_phrase_of_neg negative, negative]
  · have factors := Fraction.isFactor_numerator proper (Rational.abs c)
    have some := fraction.numerator_ne_nil (Rational.abs c)
    rw [Fraction.phrase, Fraction.chars_quotient, Fraction.chars_signed _ some]
    cases shape : fraction.numerator (Rational.abs c) with
    | nil => exact absurd shape some
    | cons first rest =>
      obtain ⟨d, chars, begins, other⟩ := (factors first (shape ▸ List.mem_cons_self)).head
      rw [toList_intercalate_text, begins]
      simpa [negative] using other

/-- Terms in a row are written as one phrase. -/
theorem joinTerms_text {items : List (Rat × Fraction)} (some : items ≠ [])
    (proper : ∀ item ∈ items, item.2.IsProper) :
    joinTerms (items.map fun item => (item.2.phrase item.1).text) = (total items).text := by
  cases items with
  | nil => exact absurd rfl some
  | cons item rest =>
    obtain ⟨c, first⟩ := item
    have others : ∀ item ∈ rest, item.2.IsProper :=
      fun item later => proper item (List.mem_cons_of_mem _ later)
    apply String.toList_inj.mp
    rw [List.map_cons, joinTerms, String.toList_append, String.toList_join, total, Phrase.text,
      Phrase.text, String.toList_ofList, String.toList_ofList]
    generalize first.phrase c = sum
    clear some proper
    induction rest generalizing sum with
    | nil => simp
    | cons item rest ih =>
      obtain ⟨d, term⟩ := item
      have step (shown : List Char) (extended : Phrase)
          (written : extended.chars = sum.chars ++ shown) :
          sum.chars ++ (shown ++ ((rest.map fun item => (item.2.phrase item.1).text).map fun t =>
            if t.startsWith '-' then t else "+" ++ t).flatMap String.toList) =
          (rest.foldl (fun sum (d, term) =>
            if d < 0 then Phrase.binary .minus sum (term.phrase (-d))
            else .binary .plus sum (term.phrase d)) extended).chars := by
        rw [← ih (fun item later => others item (List.mem_cons_of_mem _ later)) extended, written,
          List.append_assoc]
      have starts := startsWith_phrase (others (d, term) List.mem_cons_self) d
      simp only [List.map_cons, List.flatMap_cons, List.foldl_cons, starts, decide_eq_true_eq]
      refine step _ _ ?_
      by_cases negative : d < 0
      · simp [negative, Phrase.text, term.chars_phrase_of_neg negative, Phrase.chars, Sign.char]
      · simp [negative, Phrase.text, Phrase.chars, Sign.char]

/-- Terms in a row can be read back as they are bracketed. -/
theorem total_fits {items : List (Rat × Fraction)} (proper : ∀ item ∈ items, item.2.IsProper) :
    (total items).Spelled ∧ (total items).Fits := by
  cases items with
  | nil => exact ⟨trivial, trivial⟩
  | cons item rest =>
    obtain ⟨c, first⟩ := item
    obtain ⟨spelled, fits, binds⟩ := Fraction.phrase_fits (proper _ List.mem_cons_self) c
    have others : ∀ item ∈ rest, item.2.IsProper :=
      fun item later => proper item (List.mem_cons_of_mem _ later)
    rw [total]
    replace binds : 3 ≤ (first.phrase c).level := le_trans (by decide) binds
    generalize first.phrase c = sum at spelled fits binds
    clear proper
    induction rest generalizing sum with
    | nil => exact ⟨spelled, fits⟩
    | cons item rest ih =>
      obtain ⟨d, term⟩ := item
      have later : ∀ item ∈ rest, item.2.IsProper :=
        fun item later => others item (List.mem_cons_of_mem _ later)
      have step (sign : Sign) (level : sign.level = 3) (left : Phrase.leftLevel sign = 3)
          (reach : sign.reach = 4) (k : Rat) :=
        have ⟨spelledTerm, fitsTerm, bindsTerm⟩ :=
          Fraction.phrase_fits (others (d, term) List.mem_cons_self) k
        ih later (.binary sign sum (term.phrase k)) ⟨spelled, spelledTerm⟩
          ⟨fits, fitsTerm, left ▸ binds, reach ▸ bindsTerm⟩ level.ge
      simp only [List.foldl_cons]
      split
      · exact step .minus rfl rfl rfl (-d)
      · exact step .plus rfl rfl rfl d

theorem value_total (ρ : String → ℚ) (items : List (Rat × Fraction)) :
    (total items).value ρ = (items.map fun item => item.1 * item.2.value ρ).sum := by
  cases items with
  | nil => simp [total, Phrase.value]
  | cons item rest =>
    obtain ⟨c, first⟩ := item
    rw [total, List.map_cons, List.sum_cons, ← Fraction.value_phrase]
    generalize first.phrase c = sum
    induction rest generalizing sum with
    | nil => simp
    | cons item rest ih =>
      obtain ⟨d, term⟩ := item
      simp only [List.foldl_cons, List.map_cons, List.sum_cons]
      rw [ih]
      split
      · simp only [Phrase.value, Fraction.value_phrase]
        ring
      · simp only [Phrase.value, Fraction.value_phrase]
        ring

end ExactAlgebra.Reader
