import ExactAlgebra.Proofs.MultiplicationValue
import ExactAlgebra.Proofs.NormalForm
import Mathlib

/-! Rational functions: well-formed expressions of numbers, plain variables, sums and products with
whole powers. The arithmetic computes with their values, although it tells like terms and factors only
by their texts. What stops it is a key with a number too long to be written out, or a power of a
number with too many digits. -/
namespace ExactAlgebra.Expr

structure IsRationalFunction (e : Expr) : Prop where
  formed : e.WellFormed
  built : BuiltBy .rational e

/-- The computation returns a rational function that is defined and has the value. -/
def Answers (x : Except Fault Expr) (ρ : String → ℚ) (value : ℚ) : Prop :=
  ∃ r, x = .ok r ∧ IsRationalFunction r ∧ Defined ρ r ∧ eval ρ r = value

/-- A rational function that is defined and has the value. -/
structure HasValue (ρ : String → ℚ) (value : ℚ) (e : Expr) : Prop where
  rational : IsRationalFunction e
  defined : Defined ρ e
  value : eval ρ e = value

def Illegible (x : Except Fault Expr) (hasKey : Expr → Bool) (parts : List Expr) : Prop :=
  x = .error .unsupported ∧ ∃ e ∈ parts, hasKey e = false

variable {a b : Expr} {ρ : String → ℚ} {v : ℚ}

theorem rational_closed {p : Rat} (whole : p.den = 1) (q : Rat) (power : Scheme.rational.powers q) :
    Scheme.rational.powers (q * p) := (mul_num power whole).2

theorem IsRationalFunction.neg (rational : IsRationalFunction a) : IsRationalFunction a.neg :=
  ⟨rational.formed.neg, rational.built.neg⟩

theorem hasValue_number (c : ℚ) : HasValue ρ c (number c) := ⟨⟨trivial, .number c⟩, .number c, rfl⟩

theorem HasValue.scale (holds : HasValue ρ v a) (c : ℚ) : HasValue ρ (c * v) (a.scale c) where
  rational := ⟨holds.rational.formed.scale c, holds.rational.built.scale c⟩
  defined := holds.defined.scale c
  value := by rw [eval_scale, holds.value]

theorem answers_add (rationalA : IsRationalFunction a) (rationalB : IsRationalFunction b)
    (definedA : Defined ρ a) (definedB : Defined ρ b) :
    Answers (add a b) ρ (eval ρ a + eval ρ b) ∨
      Illegible (add a b) hasTermKey (a.summands ++ b.summands) := by
  obtain ⟨formedA, builtA⟩ := rationalA
  obtain ⟨formedB, builtB⟩ := rationalB
  rcases add_outcome a b with ⟨r, returned⟩ | illegible
  · refine .inl ⟨r, returned, ⟨add_wellFormed formedA formedB returned, ?_⟩, ?_, ?_⟩
    · exact (BuiltBy.keptByAddition Scheme.rational_admitsSums).add formedA formedB builtA builtB returned
    · exact (Defined.keptByAddition ρ).add formedA formedB definedA definedB returned
    · exact eval_add formedA formedB builtA builtB returned
  · exact .inr illegible

theorem answers_mul (rationalA : IsRationalFunction a) (rationalB : IsRationalFunction b)
    (definedA : Defined ρ a) (definedB : Defined ρ b) :
    Answers (mul a b) ρ (eval ρ a * eval ρ b) ∨
      Illegible (mul a b) hasBaseKey (a.factors ++ b.factors) := by
  obtain ⟨formedA, builtA⟩ := rationalA
  obtain ⟨formedB, builtB⟩ := rationalB
  rcases mul_built formedA formedB builtA builtB with illegible | ⟨r, returned, multiplies⟩
  · exact .inr illegible
  · exact .inl ⟨r, returned, ⟨mul_wellFormed formedA formedB returned, multiplies.built⟩,
      multiplies.defined ρ definedA definedB, multiplies.value ρ definedA definedB⟩

theorem answers_div (rationalA : IsRationalFunction a) (rationalB : IsRationalFunction b)
    (definedA : Defined ρ a) (definedB : Defined ρ b) (nonzero : eval ρ b ≠ 0) :
    Answers (div a b) ρ (eval ρ a / eval ρ b) ∨
      div a b = .error (.powerTooLarge maxIntegerBits) ∨
      Illegible (div a b) hasBaseKey (a.factors ++ b.factors) := by
  obtain ⟨formedA, builtA⟩ := rationalA
  obtain ⟨formedB, builtB⟩ := rationalB
  have some : b.isZero = false := by
    cases isZero : b.isZero with
    | false => rfl
    | true => exact absurd (eval_of_isZero isZero) nonzero
  rcases div_built formedA builtA formedB builtB some (rational_closed rfl) with
    ⟨-, large⟩ | illegible | ⟨r, returned, divides⟩
  · exact .inr (.inl large)
  · exact .inr (.inr illegible)
  · exact .inl ⟨r, returned, ⟨div_wellFormed formedA formedB returned, divides.built⟩,
      divides.defined ρ definedA definedB nonzero, divides.value ρ definedA definedB nonzero⟩

theorem answers_powRat (rational : IsRationalFunction a) (defined : Defined ρ a) {p : ℚ} (whole : p.den = 1)
    (nonzero : p ≤ 0 → eval ρ a ≠ 0) :
    Answers (a.powRat p) ρ (eval ρ a ^ p.num) ∨ a.powRat p = .error (.powerTooLarge maxIntegerBits) := by
  have negative : p < 0 → eval ρ a ≠ 0 := fun below => nonzero below.le
  rcases powRat_built rational.formed rational.built whole (rational_closed whole) with
    ⟨-, large⟩ | ⟨zero, below⟩ | ⟨r, returned, raises⟩
  · exact .inr large
  · exact absurd (eval_of_isZero zero) (nonzero below)
  · exact .inl ⟨r, returned, ⟨powRat_wellFormed rational.formed returned, raises.built⟩,
      raises.defined ρ defined negative, raises.value ρ defined negative⟩

theorem answers_pow (rational : IsRationalFunction a) (defined : Defined ρ a) (k : ℤ)
    (nonzero : k ≤ 0 → eval ρ a ≠ 0) :
    Answers (pow a (number k)) ρ (eval ρ a ^ k) ∨
      pow a (number k) = .error (.powerTooLarge maxIntegerBits) := by
  obtain ⟨formed, built⟩ := rational
  have whole : (k : Rat).den = 1 := Rat.den_intCast k
  have negative : (k : Rat) < 0 → eval ρ a ≠ 0 := fun below => nonzero (by exact_mod_cast below.le)
  rcases pow_built formed built whole (rational_closed whole) with
    ⟨-, large⟩ | ⟨zero, below⟩ | ⟨r, returned, raises⟩
  · exact .inr large
  · exact absurd (eval_of_isZero zero) (nonzero (by exact_mod_cast below))
  · refine .inl ⟨r, returned, ⟨@pow_wellFormed a (number k) r formed trivial returned, raises.built⟩,
      raises.defined ρ defined negative, ?_⟩
    rw [raises.value ρ defined negative, Rat.num_intCast]

/-- The arithmetic computes with the values of rational functions. Sums and products fail only where a
key cannot be written out, quotients also where a power has too many digits, and powers only there. -/
theorem arithmetic_keeps_value (rationalA : IsRationalFunction a) (rationalB : IsRationalFunction b)
    (definedA : Defined ρ a) (definedB : Defined ρ b) :
    (Answers (add a b) ρ (eval ρ a + eval ρ b) ∨
      Illegible (add a b) hasTermKey (a.summands ++ b.summands)) ∧
    (Answers (sub a b) ρ (eval ρ a - eval ρ b) ∨
      Illegible (sub a b) hasTermKey (a.summands ++ b.summands)) ∧
    (Answers (mul a b) ρ (eval ρ a * eval ρ b) ∨
      Illegible (mul a b) hasBaseKey (a.factors ++ b.factors)) ∧
    (eval ρ b ≠ 0 → Answers (div a b) ρ (eval ρ a / eval ρ b) ∨
      div a b = .error (.powerTooLarge maxIntegerBits) ∨
      Illegible (div a b) hasBaseKey (a.factors ++ b.factors)) ∧
    (∀ k : ℤ, (k ≤ 0 → eval ρ a ≠ 0) → Answers (pow a (number k)) ρ (eval ρ a ^ k) ∨
      pow a (number k) = .error (.powerTooLarge maxIntegerBits)) := by
  refine ⟨answers_add rationalA rationalB definedA definedB, ?_,
    answers_mul rationalA rationalB definedA definedB,
    answers_div rationalA rationalB definedA definedB, answers_pow rationalA definedA⟩
  have difference : Answers (sub a b) ρ (eval ρ a + eval ρ b.neg) ∨
      Illegible (sub a b) hasTermKey (a.summands ++ b.neg.summands) :=
    answers_add rationalA rationalB.neg definedA (definedB.withCoeff _)
  rw [eval_neg, ← sub_eq_add_neg] at difference
  refine difference.imp_right fun ⟨failed, t, member, keyless⟩ => ⟨failed, ?_⟩
  rcases List.mem_append.mp member with left | right
  · exact ⟨t, List.mem_append_left _ left, keyless⟩
  · obtain ⟨u, inside, keylessU⟩ := keyless_of_withCoeff ⟨t, right, keyless⟩
    exact ⟨u, List.mem_append_right _ inside, keylessU⟩

theorem isRationalFunction_succ_x : IsRationalFunction (sum 1 [bare "x", number 1] 1) := by
  refine ⟨wellFormed_succ_x, .sum (fun t member => ?_) (fun _ _ => trivial) rfl⟩
  rcases List.mem_cons.mp member with rfl | later
  · exact .symbol (by decide) rfl
  · obtain rfl := List.mem_singleton.mp later
    exact .number 1

theorem isRationalFunction_symbol {p : Rat} (whole : p.den = 1) (nonzero : p ≠ 0) :
    IsRationalFunction (symbol 1 "x" p) :=
  ⟨⟨one_ne_zero, nonzero, .inl (by decide), fun digits => absurd digits (by decide),
    fun same => absurd same (by decide)⟩, .symbol (by decide) whole⟩

/-- The sum of `x + 1` and the reciprocal of `x`, where `x` is two. -/
theorem answers_succ_x_add_inv_x :
    IsRationalFunction (sum 1 [bare "x", number 1] 1) ∧ IsRationalFunction (symbol 1 "x" (-1)) ∧
      Answers (add (sum 1 [bare "x", number 1] 1) (symbol 1 "x" (-1))) (fun _ => 2) (7 / 2) := by
  have reciprocal : IsRationalFunction (symbol 1 "x" (-1)) :=
    isRationalFunction_symbol rfl (by decide)
  have definedSum : Defined (fun _ => 2) (sum 1 [bare "x", number 1] 1) := by
    refine .sum (fun t member => ?_) fun negative => absurd negative (by decide)
    rcases List.mem_cons.mp member with rfl | later
    · exact .symbol fun _ => two_ne_zero
    · obtain rfl := List.mem_singleton.mp later
      exact .number 1
  have legible : ∀ t ∈ (sum 1 [bare "x", number 1] 1).summands ++ (symbol 1 "x" (-1)).summands,
      t.hasTermKey = true := by decide +kernel
  have total := (arithmetic_keeps_value isRationalFunction_succ_x reciprocal definedSum
    (.symbol fun _ => two_ne_zero)).1
  refine ⟨isRationalFunction_succ_x, reciprocal, ?_⟩
  rcases total with answers | ⟨_, t, member, keyless⟩
  · have value : eval (fun _ => 2) (sum 1 [bare "x", number 1] 1) +
        eval (fun _ => 2) (symbol 1 "x" (-1)) = 7 / 2 := by
      norm_num [eval, evalSum, bare]
    rwa [value] at answers
  · rw [legible t member] at keyless
    cases keyless

theorem exists_not_isWritable : ∃ n : ℕ, n ≠ 0 ∧ Rational.isWritable n = false := by
  refine ⟨Rational.digitBound, ?_, ?_⟩
  · unfold Rational.digitBound
    generalize Rational.digitLimit = digits
    exact pow_ne_zero digits (by decide)
  · rw [Rational.isWritable, Rat.num_natCast, Int.natAbs_natCast, decide_eq_false (lt_irrefl _),
      Bool.false_and]

/-- A power with too many digits to be written out: its difference with itself is not found. -/
theorem difference_of_long_powers_fails :
    ∃ (a b : Expr) (ρ : String → ℚ), IsRationalFunction a ∧ IsRationalFunction b ∧ Defined ρ a ∧
      Defined ρ b ∧ ¬ ∃ r, sub a b = .ok r := by
  obtain ⟨n, positive, long⟩ := exists_not_isWritable
  have rational := isRationalFunction_symbol (Rat.den_natCast n) (Nat.cast_ne_zero.mpr positive)
  have defined : Defined (fun _ => 1) (symbol 1 "x" n) := .symbol fun _ => one_ne_zero
  refine ⟨_, _, fun _ => 1, rational, rational, defined, defined, ?_⟩
  rintro ⟨r, returned⟩
  rcases add_cases returned with ⟨zero, _⟩ | ⟨zero, _⟩ | ⟨x, y, same, _⟩ | ⟨keyed, _⟩
  · cases zero
  · cases zero
  · cases same
  · have legible := keyed _ List.mem_cons_self
    simp [hasTermKey, termRank, isNumber, face, singleFace, Face.isLegibleTimes, power, long]
      at legible

end ExactAlgebra.Expr
