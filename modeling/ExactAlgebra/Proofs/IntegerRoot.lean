import ExactAlgebra.Arithmetic.Radical
import Mathlib

/-! Roots of integers. Newton's iteration falls to the integer part of the root and stops there, so an
exact root is found when there is one; drawing powers out of an integer keeps the product. -/
namespace ExactAlgebra

/-- Bernoulli's inequality, cleared of denominators. -/
theorem mul_pow_le_pow_add (r g d : ℕ) :
    (d + 1) * r * g ^ d ≤ r ^ (d + 1) + d * g ^ (d + 1) := by
  rcases Nat.eq_zero_or_pos g with rfl | positive
  · rcases Nat.eq_zero_or_pos d with rfl | higher
    · simp
    · simp [zero_pow higher.ne']
  have positiveQ : (0 : ℚ) < g := by exact_mod_cast positive
  have bernoulli := one_add_mul_le_pow (a := (r / g - 1 : ℚ))
    (by linarith [div_nonneg (Nat.cast_nonneg' r) positiveQ.le]) (d + 1)
  rw [add_sub_cancel, div_pow, le_div_iff₀ (pow_pos positiveQ _)] at bernoulli
  have cleared : ((d + 1) * r * g ^ d : ℚ) ≤ r ^ (d + 1) + d * g ^ (d + 1) := by
    have expand : (1 + ((d + 1 : ℕ) : ℚ) * (r / g - 1)) * (g : ℚ) ^ (d + 1) =
        (d + 1) * r * g ^ d - d * g ^ (d + 1) := by
      push_cast
      field_simp
      ring
    rw [expand] at bernoulli
    linarith
  exact_mod_cast cleared

def betterRoot (value degree guess : ℕ) : ℕ :=
  ((degree - 1) * guess + value / guess ^ (degree - 1)) / degree

/-- A step never falls below the root. -/
theorem le_betterRoot {value degree guess r : ℕ} (proper : 0 < degree) (positive : 0 < guess)
    (below : r ^ degree ≤ value) : r ≤ betterRoot value degree guess := by
  obtain ⟨d, rfl⟩ : ∃ d, degree = d + 1 := ⟨degree - 1, by omega⟩
  rw [betterRoot, Nat.add_sub_cancel, Nat.le_div_iff_mul_le proper]
  have bernoulli := mul_pow_le_pow_add r guess d
  have power : 0 < guess ^ d := pow_pos positive d
  rcases le_or_gt (r * (d + 1)) (d * guess) with small | large
  · exact small.trans (Nat.le_add_right _ _)
  obtain ⟨gap, split⟩ : ∃ gap, r * (d + 1) = d * guess + gap := ⟨r * (d + 1) - d * guess, by omega⟩
  have room : gap ≤ value / guess ^ d := by
    rw [Nat.le_div_iff_mul_le power]
    have product : (d + 1) * r * guess ^ d = d * guess ^ (d + 1) + gap * guess ^ d := by
      rw [Nat.mul_comm (d + 1) r, split, Nat.add_mul, pow_succ]
      ring
    omega
  rw [split]
  exact Nat.add_le_add_left room _

/-- Where a step does not go down, the root is reached. -/
theorem pow_le_of_betterRoot {value degree guess : ℕ} (proper : 0 < degree) (positive : 0 < guess)
    (stops : guess ≤ betterRoot value degree guess) : guess ^ degree ≤ value := by
  obtain ⟨d, rfl⟩ : ∃ d, degree = d + 1 := ⟨degree - 1, by omega⟩
  rw [betterRoot, Nat.add_sub_cancel, Nat.le_div_iff_mul_le proper, Nat.mul_add_one,
    Nat.mul_comm guess d] at stops
  have quotient : guess ≤ value / guess ^ d := by omega
  rwa [Nat.le_div_iff_mul_le (pow_pos positive d), ← pow_succ'] at quotient

theorem descendRoot_eq (value degree guess : ℕ) :
    descendRoot value degree guess =
      if betterRoot value degree guess < guess then
        descendRoot value degree (betterRoot value degree guess)
      else guess := by
  rw [descendRoot]
  rfl

/-- From above, the iteration falls to the integer part of the root. -/
theorem descendRoot_eq_root {value degree guess r : ℕ} (proper : 0 < degree) (positive : 0 < r)
    (below : r ^ degree ≤ value) (above : value < (r + 1) ^ degree) (start : r ≤ guess) :
    descendRoot value degree guess = r := by
  induction guess using Nat.strongRecOn with
  | ind guess ih =>
    rw [descendRoot_eq]
    split
    next down => exact ih _ down (le_betterRoot proper (by omega) below)
    next stays =>
      have reached := pow_le_of_betterRoot proper (by omega) (not_lt.mp stays)
      have bound := lt_of_pow_lt_pow_left₀ degree (Nat.zero_le _) (reached.trans_lt above)
      omega

/-- The iteration starts above the root: a number is less than two to the number of its binary
digits. -/
theorem lt_two_pow_bitLength (n : ℕ) : n < 2 ^ Rational.bitLength n := by
  rw [Rational.bitLength]
  split
  next zero => simp [zero]
  next => exact Nat.lt_log2_self

/-- An exact root is found, and only an exact root. -/
theorem integerRoot?_eq_some {value degree r : ℕ} (proper : 0 < degree) :
    integerRoot? value degree = some r ↔ r ^ degree = value := by
  unfold integerRoot?
  split
  next small =>
    rw [Option.some.injEq]
    constructor
    · rintro rfl
      rcases (by omega : value = 0 ∨ value = 1) with rfl | rfl
      · exact zero_pow proper.ne'
      · exact one_pow _
    · rintro rfl
      rcases (by omega : r ^ degree = 0 ∨ r ^ degree = 1) with zero | one
      · rw [zero, (pow_eq_zero_iff proper.ne').mp zero]
      · rw [one, (Nat.pow_eq_one.mp one).resolve_right proper.ne']
  next large =>
    dsimp only
    constructor
    · intro found
      split at found
      next exact => exact Option.some.inj found ▸ exact
      next => cases found
    · rintro rfl
      have positive : 0 < r := by
        rcases Nat.eq_zero_or_pos r with rfl | positive
        · rw [zero_pow proper.ne'] at large
          omega
        · exact positive
      have start : r ≤ 2 ^ ((Rational.bitLength (r ^ degree) + degree - 1) / degree) := by
        refine (lt_of_pow_lt_pow_left₀ degree (Nat.zero_le _) ?_).le
        refine (lt_two_pow_bitLength _).trans_le ?_
        rw [← pow_mul]
        refine Nat.pow_le_pow_right (by omega) ?_
        have := Nat.div_add_mod (Rational.bitLength (r ^ degree) + degree - 1) degree
        have := Nat.mod_lt (Rational.bitLength (r ^ degree) + degree - 1) proper
        rw [Nat.mul_comm]
        omega
      have root := descendRoot_eq_root proper positive le_rfl
        (Nat.pow_lt_pow_left (Nat.lt_succ_self r) proper.ne') start
      have start : Nat.pow 2 ((Rational.bitLength (r ^ degree) + degree - 1) / degree) =
          2 ^ ((Rational.bitLength (r ^ degree) + degree - 1) / degree) := rfl
      rw [start, root]
      exact if_pos rfl

theorem drawOut_eq (prime degree outside inside : ℕ) :
    (drawOut prime (prime ^ degree) outside inside).1 ^ degree *
        (drawOut prime (prime ^ degree) outside inside).2 = outside ^ degree * inside := by
  fun_induction drawOut prime (prime ^ degree) outside inside with
  | case1 outside inside divides ih =>
    rw [ih, mul_pow, mul_assoc, Nat.mul_div_cancel' (Nat.dvd_of_mod_eq_zero divides.2.2)]
  | case2 => rfl

theorem drawOutPrimes_eq (degree : ℕ) (primes : List ℕ) (outside inside : ℕ) :
    (drawOutPrimes degree primes outside inside).1 ^ degree *
        (drawOutPrimes degree primes outside inside).2 = outside ^ degree * inside := by
  induction primes generalizing outside inside with
  | nil => rfl
  | cons prime primes ih =>
    rw [drawOutPrimes]
    dsimp only
    split
    · rfl
    · rw [ih]
      exact drawOut_eq prime degree outside inside

/-- What was drawn out to the degree, times what is left, is the number. -/
theorem splitPower_eq (value : ℕ) {degree : ℕ} (proper : 0 < degree) :
    (splitPower value degree).1 ^ degree * (splitPower value degree).2 = value := by
  unfold splitPower
  split
  next root found => rw [(integerRoot?_eq_some proper).mp found, mul_one]
  next => rw [drawOutPrimes_eq, one_pow, one_mul]

theorem splitPower_pow (r : ℕ) {degree : ℕ} (proper : 0 < degree) :
    splitPower (r ^ degree) degree = (r, 1) := by
  rw [splitPower, (integerRoot?_eq_some proper).mpr rfl]

end ExactAlgebra
