import ExactAlgebra.Proofs.Arithmetic
import Mathlib

/-! The text of an expression can be read back. A text of arithmetic that is read to an expression has a
canonical text, and reading that gives an expression with the same canonical text again. -/
namespace ExactAlgebra

namespace Reader
open Text

/-- Digits in a text that are no part of a name. -/
def IsNumeral (text digits : List Char) : Prop :=
  ∃ before after, text = before ++ digits ++ after ∧ (∀ c ∈ digits, c.isDigit = true) ∧
    ∀ c ∈ before.getLast?, continuesName c = false

/-- No number in the text is too long to be read. -/
def HasShortNumerals (text : String) : Prop :=
  ∀ digits, IsNumeral text.toList digits → digits.length ≤ Rational.maxLiteralDigits

theorem hasShortNumerals_of_length {text : String} (short : text.length ≤ Rational.maxLiteralDigits) :
    HasShortNumerals text := by
  rintro digits ⟨before, after, shape, _⟩
  have length := congrArg List.length shape
  rw [String.length_toList, List.length_append, List.length_append] at length
  omega

/-- Where the numbers of a text are short, those of its phrase are. -/
theorem Phrase.short_of_numerals {phrase : Phrase} {before after : List Char}
    (short : ∀ digits, IsNumeral (before ++ phrase.chars ++ after) digits →
      digits.length ≤ Rational.maxLiteralDigits)
    (opens : ∀ c ∈ before.getLast?, continuesName c = false) : phrase.Short := by
  have opened {c : Char} (other : continuesName c = false) (before : List Char) :
      ∀ d ∈ (before ++ [c]).getLast?, continuesName d = false := by
    simpa using other
  induction phrase generalizing before after with
  | number n =>
    have digits := short (toString n).toList
      ⟨before, after, rfl, fun c => isDigit_of_mem_toString, opens⟩
    rwa [String.length_toList] at digits
  | name => trivial
  | negative a ih =>
    refine @ih (before ++ ['-']) after (fun digits numeral => short digits ?_) (opened (by decide) before)
    simpa [chars] using numeral
  | binary sign a b ihA ihB =>
    have sign_outside : continuesName sign.char = false := by cases sign <;> decide
    constructor
    · refine @ihA before (sign.char :: b.chars ++ after) (fun digits numeral => short digits ?_) opens
      simpa [chars] using numeral
    · refine @ihB (before ++ a.chars ++ [sign.char]) after (fun digits numeral => short digits ?_)
        (opened sign_outside _)
      simpa [chars] using numeral
  | group a ih =>
    refine @ih (before ++ ['(']) (')' :: after) (fun digits numeral => short digits ?_)
      (opened (by decide) before)
    simpa [chars] using numeral

end Reader

namespace Expr
open Reader

def NamedFraction (fraction : Fraction) : Prop :=
  (∀ a ∈ fraction.above, a.Named) ∧ ∀ a ∈ fraction.below, a.Named

theorem namedFraction_power {base : Phrase} (named : base.Named) (p : Rat) :
    NamedFraction (.power base p) := by
  have powered (q : Rat) : (powered base q).Named := by
    unfold Reader.powered
    split
    · exact named
    · exact ⟨named, trivial⟩
  unfold Fraction.power
  split
  · exact ⟨by simp, by simpa using powered _⟩
  · exact ⟨by simpa using powered _, by simp⟩

theorem namedFraction_merge {fractions : List Fraction} (named : ∀ f ∈ fractions, NamedFraction f) :
    NamedFraction (.merge fractions) := by
  constructor
  · intro a member
    obtain ⟨f, inside, above⟩ := List.mem_flatMap.mp member
    exact (named f inside).1 a above
  · intro a member
    obtain ⟨f, inside, below⟩ := List.mem_flatMap.mp member
    exact (named f inside).2 a below

theorem NamedFraction.phrase {fraction : Fraction} (named : NamedFraction fraction) (c : Rat) :
    (fraction.phrase c).Named := by
  refine Fraction.all_phrase.mpr ⟨fun a member => ?_, fun a member => ?_⟩
  · rcases List.mem_append.mp member with number | above
    · split at number
      · obtain rfl := List.mem_singleton.mp number
        trivial
      · cases number
    · exact named.1 a above
  · unfold Fraction.denominator at member
    split at member
    · rcases List.mem_cons.mp member with rfl | below
      · trivial
      · exact named.2 a below
    · exact named.2 a member

theorem named_total {items : List (Rat × Fraction)} (named : ∀ item ∈ items, NamedFraction item.2) :
    (total items).Named := by
  by_cases some : items = []
  · rw [some]
    trivial
  · exact (all_total some).mpr fun item member => (named item member).phrase item.1

/-- The phrase of an ordinary expression has plain names alone. -/
theorem BuiltBy.named {scheme : Scheme} {e : Expr} (built : BuiltBy scheme e)
    (names : NamesHave Expected e) :
    (∀ item ∈ e.depict.terms, NamedFraction item.2) ∧ e.depict.base.Named := by
  induction built with
  | number =>
    refine ⟨fun item member => ?_, trivial⟩
    obtain rfl := List.mem_singleton.mp member
    exact ⟨by simp, by simp⟩
  | @symbol c name p variable_name =>
    have plain : PlainName name := names name List.mem_cons_self variable_name
    have base : (Phrase.name name).Named := plain
    refine ⟨fun item member => ?_, base⟩
    obtain rfl := List.mem_singleton.mp member
    exact namedFraction_power base p
  | @sum c terms p _ _ _ ih =>
    have inside : ∀ item ∈ spreadItems terms, NamedFraction item.2 := by
      intro item member
      obtain ⟨t, there, found⟩ := List.mem_flatMap.mp member
      obtain ⟨inner, below, rfl⟩ := List.mem_map.mp found
      have listed := (sortTerms_perm terms).mem_iff.mp there
      exact (ih t listed (NamesHave.sum.mp names t listed)).1 inner below
    have base : (Phrase.group (total (spreadItems terms))).Named := named_total inside
    rw [depict_sum]
    refine ⟨fun item member => ?_, base⟩
    split at member
    · exact inside item member
    · obtain rfl := List.mem_singleton.mp member
      exact namedFraction_power base p
  | @product c factors _ ih =>
    rw [depict_product]
    refine ⟨fun item member => ?_, trivial⟩
    obtain rfl := List.mem_singleton.mp member
    refine namedFraction_merge fun fraction member => ?_
    obtain ⟨f, there, rfl⟩ := List.mem_map.mp member
    have listed := (sortFactors_perm factors).mem_iff.mp there
    exact namedFraction_power (ih f listed (NamesHave.product.mp names f listed)).2 f.power

end Expr

namespace Reader
open ExactAlgebra.Expr

/-- A text of arithmetic. -/
def IsArithmeticText (text : String) : Prop :=
  ∃ prepared tokens, Session.initial.preprocess text = .ok prepared ∧
    Session.initial.tokenize prepared = .ok tokens ∧ IsArithmetic tokens

theorem compile_of_parse {text : String} {v : Value}
    (parsed : (Session.initial.parse text []).result = .ok v) :
    ∃ program, Session.initial.compile text = .ok program := by
  change (Machine.result (Machine.ofExcept (Session.initial.compile text) >>= fun program =>
    Session.initial.execute (Session.initial.resolver []) program)) = _ at parsed
  cases compiled : Session.initial.compile text with
  | ok program => exact ⟨program, rfl⟩
  | error =>
    rw [compiled] at parsed
    cases parsed

/-- A text of arithmetic is compiled to a program of arithmetic. -/
theorem IsArithmeticText.isArithmeticProgram {text : String} {program : Program} (arithmetic : IsArithmeticText text)
    (compiled : Session.initial.compile text = .ok program) : IsArithmeticProgram program := by
  obtain ⟨prepared, tokens, preprocessed, cut, isArithmetic⟩ := arithmetic
  refine isArithmetic.isArithmeticProgram ?_
  rw [Session.compile, preprocessed] at compiled
  change (Session.initial.tokenize prepared >>= Session.initial.grammar.program) = _ at compiled
  rwa [cut] at compiled

/-- What a text of arithmetic is read to is an ordinary expression. -/
theorem IsArithmeticText.isOrdinary {text : String} {e : Expr} (arithmetic : IsArithmeticText text)
    (parsed : (Session.initial.parse text []).result = .ok (.expr e)) : IsOrdinary e := by
  obtain ⟨program, compiled⟩ := compile_of_parse parsed
  obtain ⟨x, computes, ordinary⟩ := (arithmetic.isArithmeticProgram compiled).yields
  rw [parse_computes compiled computes] at parsed
  obtain ⟨a, returned, same⟩ := Outcome.bind_ok parsed
  obtain rfl : a = e := Value.expr.inj (Except.ok.inj same)
  exact ordinary a returned

theorem isLegible_of_render {e : Expr} {written : String} (rendered : e.render = .ok written) :
    e.face.isLegible = true := by
  unfold render at rendered
  dsimp only at rendered
  split at rendered
  next legible => exact (Bool.and_eq_true_iff.mp legible).1
  next => cases rendered

/-- The canonical text of what a text of arithmetic is read to can be read back, unless it or a number in
it is too long, and what it is read to has the same canonical text. -/
theorem canonical_text_reads_back {text written : String} {e : Expr} (arithmetic : IsArithmeticText text)
    (parsed : (Session.initial.parse text []).result = .ok (.expr e)) (rendered : e.render = .ok written)
    (fits : written.length ≤ 10000) (short : HasShortNumerals written) :
    ∃ again, (Session.initial.parse written []).result = .ok (.expr again) ∧
      again.render = .ok written := by
  obtain ⟨formed, built, names⟩ := arithmetic.isOrdinary parsed
  have depicted := (built.depicted formed).1
  have scaled (property : Fraction → Prop) (each : ∀ item ∈ e.depict.terms, property item.2) :
      ∀ item ∈ e.depict.terms.map fun item => (item.1 * e.coeff, item.2), property item.2 := by
    intro item member
    obtain ⟨inner, inside, rfl⟩ := List.mem_map.mp member
    exact each inner inside
  have chars : written.toList = (e.phrase e.coeff).chars := by
    have shown : (e.phrase e.coeff).text = written :=
      (depicted.text e.coeff).symm.trans (text_of_render rendered)
    rw [← shown, Phrase.text, String.toList_ofList]
  have named : (e.phrase e.coeff).Named := named_total (scaled _ (built.named names).1)
  have compiled := compile_phrase named (total_fits (scaled _ depicted.proper)).2 chars fits
  have numerals : (e.phrase e.coeff).Short := by
    refine @Phrase.short_of_numerals _ [] [] (fun digits numeral => short digits ?_) (by simp)
    simpa [chars] using numeral
  have proper : e.isNumber = true ∨ e.coeff ≠ 0 := by
    cases number : e.isNumber with
    | true => exact .inl rfl
    | false => exact .inr (formed.coeff_ne_zero number)
  obtain ⟨again, computed, similar, _⟩ := (built.restored formed).1 (isLegible_of_render rendered) e.coeff
    proper numerals
  rw [withCoeff_coeff] at similar
  refine ⟨again, ?_, similar.render.symm.trans rendered⟩
  rw [parse_computes compiled (Phrase.computes named 0), computed]
  rfl

theorem plainName_x : PlainName "x" := ⟨by decide, by decide +kernel, by decide, by decide⟩

/-- Three over the square of `2*x-2`. -/
def reciprocalSquare : Phrase :=
  .binary .divided (.number 3) (.binary .raised
    (.group (.binary .minus (.binary .times (.number 2) (.name "x")) (.number 2))) (.number 2))

theorem isArithmetic_reciprocalSquare : IsArithmetic (reciprocalSquare.tokens 0) := by
  have exponent : IsExponent [.number (toString 2) 10] := by
    refine .number 10 fun v read => ?_
    rw [Rational.ofText_toString (by decide)] at read
    obtain rfl := Except.ok.inj read
    rfl
  have inside : IsArithmetic [.number (toString 2) 3, .operator "*" 4, .name "x" 5, .operator "-" 6,
      .number (toString 2) 7] :=
    .number _ _ (@IsArithmetic.sign _ .times 4 nofun (.name 5 plainName_x
      (@IsArithmetic.sign _ .minus 6 nofun (.number _ _ .nil))))
  exact .number _ _ (@IsArithmetic.sign _ .divided 1 nofun (.group 2 inside (.power 9 exponent nofun .nil)))

def isTwiceDifference : Except Fault Expr → Bool
  | .ok (.sum c [.symbol a name p, .number k] q) =>
    decide (c = 2 ∧ a = 1 ∧ name = "x" ∧ p = 1 ∧ k = -1 ∧ q = 1)
  | _ => false

theorem compute_reciprocalSquare :
    reciprocalSquare.compute = .ok (sum (3 / 4) [bare "x", number (-1)] (-2)) := by
  let base : Phrase := .group (.binary .minus (.binary .times (.number 2) (.name "x")) (.number 2))
  have difference : base.compute = .ok (sum 2 [bare "x", number (-1)] 1) := by
    have shape : isTwiceDifference base.compute = true := by decide +kernel
    unfold isTwiceDifference at shape
    split at shape
    next c a name p k q found =>
      obtain ⟨rfl, rfl, rfl, rfl, rfl, rfl⟩ := of_decide_eq_true shape
      exact found
    next => cases shape
  have named : base.Named := ⟨⟨trivial, plainName_x⟩, trivial⟩
  have formed : (sum 2 [bare "x", number (-1)] 1).WellFormed :=
    (Phrase.computes named 0).wellFormed difference
  have built (c p : Rat) (whole : p.den = 1) : BuiltBy .rational (sum c [bare "x", number (-1)] p) := by
    refine .sum (fun t member => ?_) (fun _ _ => trivial) whole
    rcases List.mem_cons.mp member with rfl | later
    · exact .symbol (by decide) rfl
    · obtain rfl := List.mem_singleton.mp later
      exact .number _
  have square : pow (sum 2 [bare "x", number (-1)] 1) (number 2) =
      .ok (sum 4 [bare "x", number (-1)] 2) := by
    rw [pow_base formed (built 2 1 rfl) rfl rfl rfl (by decide) (by decide) (by decide +kernel)]
    norm_num [withPower, withCoeff, power, coeff]
  have formedSquare : (sum 4 [bare "x", number (-1)] 2).WellFormed := ⟨by decide, by decide, formed.2.2⟩
  have inverse : inv (sum 4 [bare "x", number (-1)] 2) =
      .ok (sum (1 / 4) [bare "x", number (-1)] (-2)) := by
    refine (powRat_base (p := -1) formedSquare (built 4 2 rfl) rfl rfl rfl (by decide) (by decide)
      (by decide +kernel)).trans ?_
    norm_num [withPower, withCoeff, power, coeff]
  have quotient : div (number 3) (sum 4 [bare "x", number (-1)] 2) =
      .ok (sum (3 / 4) [bare "x", number (-1)] (-2)) := by
    obtain ⟨n, limit⟩ := enough_for_one (number 3) (sum (1 / 4) [bare "x", number (-1)] (-2))
    rw [div, inverse]
    change mul (number 3) (sum (1 / 4) [bare "x", number (-1)] (-2)) = _
    rw [mul, limit, mulWithin_number (n + 1) (by decide) rfl]
    norm_num [scale, withCoeff, coeff]
  have two : (Phrase.number 2).Short := show (toString 2).length ≤ _ by decide
  have three : (Phrase.number 3).Short := show (toString 3).length ≤ _ by decide
  have below : (Phrase.binary .raised base (.number 2)).compute = .ok (sum 4 [bare "x", number (-1)] 2) :=
    (compute_binary difference (compute_number two)).trans square
  exact (compute_binary (compute_number three) below).trans quotient

theorem render_reciprocalSquare :
    (sum (3 / 4) [bare "x", number (-1)] (-2)).render = .ok "3/(4*(x-1)^2)" := by
  apply Outcome.ok_of_toOption
  decide +kernel

/-- Three over the square of `2*x-2`, whose canonical text is read back. -/
theorem reads_back_reciprocalSquare :
    ∃ e, IsArithmeticText "3/(2*x-2)^2" ∧
      (Session.initial.parse "3/(2*x-2)^2" []).result = .ok (.expr e) ∧
      e.render = .ok "3/(4*(x-1)^2)" ∧ HasShortNumerals "3/(4*(x-1)^2)" ∧
      ∃ again, (Session.initial.parse "3/(4*(x-1)^2)" []).result = .ok (.expr again) ∧
        again.render = .ok "3/(4*(x-1)^2)" := by
  have written : "3/(2*x-2)^2".toList = reciprocalSquare.chars := by decide +kernel
  have short : "3/(2*x-2)^2".length ≤ 10000 := by decide
  have named : reciprocalSquare.Named := ⟨trivial, ⟨⟨trivial, plainName_x⟩, trivial⟩, trivial⟩
  have fits : reciprocalSquare.Fits := by
    simp only [reciprocalSquare, Phrase.Fits, Phrase.level]
    decide
  have arithmetic : IsArithmeticText "3/(2*x-2)^2" :=
    ⟨_, _, preprocess_phrase named written short, tokenize_phrase _ named.spelled written,
      isArithmetic_reciprocalSquare⟩
  have parsed := parse_computes (compile_phrase named fits written short) (Phrase.computes named 0)
  rw [compute_reciprocalSquare] at parsed
  have numerals : HasShortNumerals "3/(4*(x-1)^2)" := hasShortNumerals_of_length (by decide)
  exact ⟨_, arithmetic, parsed, render_reciprocalSquare, numerals,
    canonical_text_reads_back arithmetic parsed render_reciprocalSquare (by decide) numerals⟩

end Reader

end ExactAlgebra
