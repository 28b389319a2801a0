import ExactAlgebra.Proofs.IntegerRoot
import Mathlib

/-! Roots drawn out of integers. The search for an exact root comes to its end, and its result decides
whether there is one. Where there is none, no power of a small prime is left under the root. -/
namespace ExactAlgebra

variable {value degree guess root : ℕ}

/-- The guesses from one down to the last, with the number of steps. No guess is zero, so no step divides by
zero; every next guess is less; the one after the last would not be. -/
inductive Descends (value degree : ℕ) : ℕ → ℕ → ℕ → Prop
  | stays {guess : ℕ} : 0 < guess → guess ≤ betterRoot value degree guess →
    Descends value degree guess 0 guess
  | down {guess steps root : ℕ} : 0 < guess → betterRoot value degree guess < guess →
    Descends value degree (betterRoot value degree guess) steps root →
    Descends value degree guess (steps + 1) root

def firstGuess (value degree : ℕ) : ℕ := 2 ^ ((Rational.bitLength value + degree - 1) / degree)

/-- The search for an exact root, with its number of steps. Numbers below two are their own roots; for the
others the last guess of the descent is tried. -/
inductive SearchesRoot (value degree : ℕ) : ℕ → Option ℕ → Prop
  | small : value < 2 → SearchesRoot value degree 0 (some value)
  | exact {steps root : ℕ} : 2 ≤ value → Descends value degree (firstGuess value degree) steps root →
    root ^ degree = value → SearchesRoot value degree steps (some root)
  | inexact {steps root : ℕ} : 2 ≤ value → Descends value degree (firstGuess value degree) steps root →
    root ^ degree ≠ value → SearchesRoot value degree steps none

/-- Every step goes down, so no more are made than there are numbers above the last guess. -/
theorem Descends.steps_add_le {steps : ℕ} (run : Descends value degree guess steps root) :
    steps + root ≤ guess := by
  induction run with
  | stays => exact (Nat.zero_add _).le
  | down _ down _ ih => omega

/-- From a guess that is no zero the descent comes to its end, with what is computed. -/
theorem exists_descends (proper : 0 < degree) (positive : 0 < value) (start : 0 < guess) :
    ∃ steps, Descends value degree guess steps (descendRoot value degree guess) := by
  induction guess using Nat.strongRecOn with
  | ind guess ih =>
    rw [descendRoot_eq]
    split
    next down =>
      -- The next guess is no zero either: one to the degree is not above the number.
      have next : 1 ≤ betterRoot value degree guess := le_betterRoot proper start (by rwa [one_pow])
      obtain ⟨steps, run⟩ := ih _ down next
      exact ⟨steps + 1, .down start down run⟩
    next stays => exact ⟨0, .stays start (not_lt.mp stays)⟩

theorem exists_searchesRoot (value : ℕ) (proper : 0 < degree) :
    ∃ steps ≤ firstGuess value degree, SearchesRoot value degree steps (integerRoot? value degree) := by
  unfold integerRoot?
  split
  next small => exact ⟨0, Nat.zero_le _, .small small⟩
  next large =>
    have several : 2 ≤ value := not_lt.mp large
    have positive : 0 < value := by omega
    have start : 0 < firstGuess value degree := pow_pos two_pos _
    obtain ⟨steps, run⟩ := exists_descends proper positive start
    refine ⟨steps, by have := run.steps_add_le; omega, ?_⟩
    dsimp only
    split
    next power => exact .exact several run power
    next other => exact .inexact several run other

/-- The search for an exact root comes to its end within as many steps as the first guess. It returns the
root if there is one, and nothing otherwise. -/
theorem integerRoot?_ends_and_decides (value : ℕ) {degree : ℕ} (several : 2 ≤ degree) :
    (∃ steps ≤ firstGuess value degree, SearchesRoot value degree steps (integerRoot? value degree)) ∧
      (∀ r, integerRoot? value degree = some r ↔ r ^ degree = value) ∧
      (integerRoot? value degree = none ↔ ¬ ∃ r, r ^ degree = value) := by
  have proper : 0 < degree := by omega
  have decides (r : ℕ) : integerRoot? value degree = some r ↔ r ^ degree = value :=
    integerRoot?_eq_some proper
  refine ⟨exists_searchesRoot value proper, decides, ?_⟩
  rw [Option.eq_none_iff_forall_ne_some, not_exists]
  exact forall_congr' fun r => not_congr (decides r)

/-- A cube has a root, the number after it has none. -/
theorem cube_and_next_searched :
    2 ≤ 3 ∧ integerRoot? (12345678901 ^ 3) 3 = some 12345678901 ∧
      (∃ steps ≤ firstGuess (12345678901 ^ 3 + 1) 3, SearchesRoot (12345678901 ^ 3 + 1) 3 steps none) ∧
      integerRoot? (12345678901 ^ 3 + 1) 3 = none := by
  have several : 2 ≤ 3 := by decide
  obtain ⟨-, decides, -⟩ := integerRoot?_ends_and_decides (12345678901 ^ 3) several
  obtain ⟨search, -, missed⟩ := integerRoot?_ends_and_decides (12345678901 ^ 3 + 1) several
  have between : ¬ ∃ r, r ^ 3 = 12345678901 ^ 3 + 1 := by
    rintro ⟨r, power⟩
    have above : 12345678901 < r := lt_of_pow_lt_pow_left₀ 3 (Nat.zero_le _) (by omega)
    have below : r < 12345678902 := lt_of_pow_lt_pow_left₀ 3 (Nat.zero_le _) (by omega)
    omega
  rw [missed.mpr between] at search
  exact ⟨several, (decides _).mpr rfl, search, missed.mpr between⟩

theorem mem_smallPrimes {p : ℕ} : p ∈ smallPrimes ↔ p.Prime ∧ p < 1000 := by
  rw [smallPrimes, List.mem_filter, List.mem_range, Nat.prime_def_lt', and_comm]
  refine and_congr_left fun _ => ?_
  rw [Bool.and_eq_true, decide_eq_true_eq, List.all_eq_true]
  refine and_congr_right fun _ => ⟨fun undivided m large less divides => ?_, fun undivided q inside => ?_⟩
  · have tried := undivided (m - 2) (List.mem_range.mpr (by omega))
    rw [Nat.sub_add_cancel large] at tried
    exact of_decide_eq_true tried (Nat.mod_eq_zero_of_dvd divides)
  · have room := List.mem_range.mp inside
    refine decide_eq_true fun whole => ?_
    exact undivided (q + 2) (by omega) (by omega) (Nat.dvd_of_mod_eq_zero whole)

theorem smallPrimes_rising : smallPrimes.Pairwise (· < ·) := List.pairwise_lt_range.filter _

variable {prime target outside inside : ℕ} {primes : List ℕ}

/-- What is left after a power was drawn out is a divisor that the power does not divide any more. -/
theorem drawOut_left (proper : 2 ≤ target) (positive : 0 < inside) :
    (drawOut prime target outside inside).2 ∣ inside ∧
      ¬ target ∣ (drawOut prime target outside inside).2 := by
  fun_induction drawOut prime target outside inside with
  | case1 outside inside divided ih =>
    have divides : target ∣ inside := Nat.dvd_of_mod_eq_zero divided.2.2
    have quotient : 0 < inside / target := Nat.div_pos (Nat.le_of_dvd positive divides) (by omega)
    obtain ⟨left, free⟩ := ih quotient
    exact ⟨left.trans (Nat.div_dvd_of_dvd divides), free⟩
  | case2 outside inside stops =>
    exact ⟨dvd_rfl, fun divides => stops ⟨proper, positive, Nat.mod_eq_zero_of_dvd divides⟩⟩

/-- Of rising primes, the powers of all are drawn out, those included that are not tried any more. -/
theorem drawOutPrimes_left (proper : 0 < degree) (rising : primes.Pairwise (· < ·))
    (large : ∀ p ∈ primes, 2 ≤ p) (positive : 0 < inside) :
    (drawOutPrimes degree primes outside inside).2 ∣ inside ∧
      ∀ p ∈ primes, ¬ p ^ degree ∣ (drawOutPrimes degree primes outside inside).2 := by
  induction primes generalizing outside inside with
  | nil => exact ⟨dvd_rfl, by simp⟩
  | cons prime primes ih =>
    obtain ⟨least, rising⟩ := List.pairwise_cons.mp rising
    obtain ⟨two, large⟩ := List.forall_mem_cons.mp large
    rw [drawOutPrimes]
    dsimp only
    split
    next exceeds =>
      -- The powers of this prime and of all later ones are greater than what is left.
      refine ⟨dvd_rfl, fun p member => Nat.not_dvd_of_pos_of_lt positive ?_⟩
      have order : prime ≤ p := by
        rcases List.mem_cons.mp member with rfl | later
        · exact le_rfl
        · exact (least p later).le
      exact exceeds.trans_le (Nat.pow_le_pow_left order degree)
    next =>
      have power : 2 ≤ prime ^ degree := two.trans (Nat.le_self_pow proper.ne' prime)
      have drawn : (drawOut prime (prime ^ degree) outside inside).2 ∣ inside ∧ _ :=
        drawOut_left power positive
      obtain ⟨left, free⟩ := ih rising large (Nat.pos_of_dvd_of_pos drawn.1 positive)
      refine ⟨left.trans drawn.1, List.forall_mem_cons.mpr ⟨fun divides => ?_, free⟩⟩
      exact drawn.2 (divides.trans left)

/-- A number as a power times what is left of it: one exactly if the number is such a power itself, and never
a multiple of such a power of a small prime. -/
structure IsPowerSplit (value degree : ℕ) (split : ℕ × ℕ) : Prop where
  product : split.1 ^ degree * split.2 = value
  perfect : split.2 = 1 ↔ ∃ r, r ^ degree = value
  free : ∀ p, p.Prime → p < 1000 → ¬ p ^ degree ∣ split.2

theorem splitPower_free (proper : 0 < degree) {p : ℕ} (prime : p.Prime) (small : p < 1000) :
    ¬ p ^ degree ∣ (splitPower value degree).2 := by
  unfold splitPower
  split
  next root found =>
    rw [Nat.dvd_one, Nat.pow_eq_one, not_or]
    exact ⟨prime.ne_one, proper.ne'⟩
  next missed =>
    have positive : 0 < value := by
      rcases Nat.eq_zero_or_pos value with rfl | positive
      · cases missed
      · exact positive
    have large : ∀ p ∈ smallPrimes, 2 ≤ p := fun p member => (mem_smallPrimes.mp member).1.two_le
    exact (drawOutPrimes_left proper smallPrimes_rising large positive).2 p
      (mem_smallPrimes.mpr ⟨prime, small⟩)

/-- Every number is split so; powers of primes that are not small may be left. -/
theorem splitPower_isPowerSplit (value : ℕ) {degree : ℕ} (several : 2 ≤ degree) :
    IsPowerSplit value degree (splitPower value degree) := by
  have proper : 0 < degree := by omega
  have product := splitPower_eq value proper
  refine ⟨product, ⟨fun one => ?_, ?_⟩, fun p => splitPower_free proper⟩
  · rw [one, mul_one] at product
    exact ⟨_, product⟩
  · rintro ⟨r, rfl⟩
    rw [splitPower_pow r proper]

/-- Two and three are drawn out; eleven is not tried any more on the `9*11*13` that are left. -/
theorem cube_of_twelve_drawn_out :
    2 ≤ 3 ∧ splitPower (12 ^ 3 * 1287) 3 = (12, 1287) ∧ IsPowerSplit (12 ^ 3 * 1287) 3 (12, 1287) := by
  have several : 2 ≤ 3 := by decide
  have split : splitPower (12 ^ 3 * 1287) 3 = (12, 1287) := by decide +kernel
  exact ⟨several, split, split ▸ splitPower_isPowerSplit (12 ^ 3 * 1287) several⟩

/-- Under a root, a number that no square divides stays as it is. -/
theorem splitPower_of_squarefree (squarefree : Squarefree value) (several : 2 ≤ degree) :
    splitPower value degree = (1, value) := by
  have product := splitPower_eq value (by omega : 0 < degree)
  have divides : (splitPower value degree).1 * (splitPower value degree).1 ∣ value := by
    rw [← pow_two]
    exact (pow_dvd_pow _ several).trans (Dvd.intro _ product)
  have outside : (splitPower value degree).1 = 1 := Nat.isUnit_iff.mp (squarefree _ divides)
  rw [outside, one_pow, one_mul] at product
  exact Prod.ext outside product

end ExactAlgebra
