import ExactAlgebra.Proofs.MultiplicationValue
import Mathlib

/-! The size of exact powers. The integers of a whole power that is returned stay within the limit on bits.
Those of a root stay within twice the limit only, because its size is estimated with one bit less for the
denominator than it has. -/
namespace ExactAlgebra

namespace Rational

/-- Numerator and denominator have at most so many binary digits. -/
structure FitsIn (bits : ℕ) (c : ℚ) : Prop where
  num : c.num.natAbs < 2 ^ bits
  den : c.den < 2 ^ bits

variable {bits : ℕ} {c v : ℚ}

theorem FitsIn.mono {more : ℕ} (fits : FitsIn bits c) (le : bits ≤ more) : FitsIn more c :=
  ⟨fits.num.trans_le (Nat.pow_le_pow_right (by decide) le), fits.den.trans_le (Nat.pow_le_pow_right (by decide) le)⟩

theorem FitsIn.neg (fits : FitsIn bits c) : FitsIn bits (-c) :=
  ⟨by simpa using fits.num, by simpa using fits.den⟩

theorem fitsIn_one (some : 0 < bits) : FitsIn bits 1 :=
  ⟨Nat.one_lt_two_pow some.ne', Nat.one_lt_two_pow some.ne'⟩

theorem fitsIn_zero (some : 0 < bits) : FitsIn bits 0 :=
  ⟨Nat.two_pow_pos bits, Nat.one_lt_two_pow some.ne'⟩

/-- A quotient in lowest terms has no greater terms than any other way to write it. -/
theorem fitsIn_of_abs {a b : ℕ} (quotient : |c| = (a : ℚ) / b) (some : a ≠ 0) (below : b ≠ 0)
    (above : a < 2 ^ bits) (small : b < 2 ^ bits) : FitsIn bits c := by
  have written : |c| = Rat.divInt a b := by
    rw [quotient, Rat.divInt_eq_div]
    push_cast
    rfl
  have numerator := Rat.num_dvd (a : ℤ) (Int.natCast_ne_zero.mpr below)
  have denominator := Rat.den_dvd a b
  rw [← written, Rat.num_abs_eq_abs_num, Int.abs_eq_natAbs, Int.natCast_dvd_natCast] at numerator
  rw [← written, Rat.den_abs_eq_den, Int.natCast_dvd_natCast] at denominator
  exact ⟨(Nat.le_of_dvd (Nat.pos_of_ne_zero some) numerator).trans_lt above,
    (Nat.le_of_dvd (Nat.pos_of_ne_zero below) denominator).trans_lt small⟩

/-- The terms of a whole power are powers of the terms. -/
theorem exists_abs_zpow {s : ℕ} (nonzero : v ≠ 0) (num : v.num.natAbs ≤ s) (den : v.den ≤ s) (p : ℤ) :
    ∃ a b : ℕ, |v ^ p| = (a : ℚ) / b ∧ a ≠ 0 ∧ b ≠ 0 ∧ a ≤ s ^ p.natAbs ∧ b ≤ s ^ p.natAbs := by
  have some : v.num.natAbs ≠ 0 := by simpa using nonzero
  rw [abs_zpow, abs_eq_natAbs_div]
  obtain ⟨n, rfl | rfl⟩ := p.eq_nat_or_neg
  · refine ⟨v.num.natAbs ^ n, v.den ^ n, ?_, pow_ne_zero _ some, pow_ne_zero _ v.den_nz,
      Nat.pow_le_pow_left num n, Nat.pow_le_pow_left den n⟩
    rw [zpow_natCast, div_pow]
    push_cast
    rfl
  · rw [Int.natAbs_neg]
    refine ⟨v.den ^ n, v.num.natAbs ^ n, ?_, pow_ne_zero _ v.den_nz, pow_ne_zero _ some,
      Nat.pow_le_pow_left den n, Nat.pow_le_pow_left num n⟩
    rw [zpow_neg, zpow_natCast, div_pow, inv_div]
    push_cast
    rfl

theorem bitLength_pos {n : ℕ} (positive : n ≠ 0) : 0 < bitLength n := by
  rw [bitLength, if_neg positive]
  exact Nat.succ_pos _

theorem lt_two_pow_of_bitLength_le {n : ℕ} (le : bitLength n ≤ bits) : n < 2 ^ bits :=
  (lt_two_pow_bitLength n).trans_le (Nat.pow_le_pow_right (by decide) le)

/-- One bit less than a positive integer has is at least half of its bits, unless the integer is one. -/
theorem le_two_pow_pred_bitLength (n : ℕ) : n ≤ 2 ^ (2 * (bitLength n - 1)) := by
  rcases Nat.lt_or_ge (bitLength n) 2 with one | more
  · have few : bitLength n ≤ 1 := by omega
    have := lt_two_pow_of_bitLength_le few
    exact (show n ≤ 1 by omega).trans Nat.one_le_two_pow
  · exact (lt_two_pow_of_bitLength_le (by omega)).le

end Rational

namespace Expr
open Rational

/-- The integers that an exact power is made of have at most so many binary digits: those of coefficients, and
those of which a root is taken. -/
inductive HasBits (bits : ℕ) : Expr → Prop
  | number {c : ℚ} (fits : FitsIn bits c) : HasBits bits (number c)
  | symbol {c p : ℚ} {name : String} (fits : FitsIn bits c)
    (base : isIntegerText name = true → (integerOf name).natAbs < 2 ^ bits) : HasBits bits (symbol c name p)
  | product {c : ℚ} {factors : List Expr} (fits : FitsIn bits c) (each : ∀ f ∈ factors, HasBits bits f) :
    HasBits bits (product c factors)

variable {bits : ℕ} {v q : ℚ} {r : Expr}

theorem natAbs_le_bitSize (v : ℚ) : bitLength v.num.natAbs ≤ bitSize v ∧ bitLength v.den ≤ bitSize v := by
  unfold bitSize
  split <;> omega

/-- A whole power that is not too large has integers within the limit. -/
theorem fitsIn_zpow (nonzero : v ≠ 0) {p : ℚ} (small : ¬ tooLarge v p) : FitsIn maxIntegerBits (v ^ p.num) := by
  obtain ⟨num, den⟩ := natAbs_le_bitSize v
  have some : 0 < bitSize v := (bitLength_pos v.den_nz).trans_le den
  obtain ⟨a, b, quotient, above, below, le, le'⟩ := exists_abs_zpow nonzero
    (Nat.le_sub_one_of_lt (lt_two_pow_of_bitLength_le num)) (Nat.le_sub_one_of_lt (lt_two_pow_of_bitLength_le den))
    p.num
  have limited : (2 ^ bitSize v - 1) ^ p.num.natAbs < 2 ^ maxIntegerBits := by
    have one : (1 : ℕ) < 2 ^ maxIntegerBits := Nat.one_lt_two_pow (by decide)
    rcases Nat.eq_zero_or_pos p.num.natAbs with zero | positive
    · rwa [zero, pow_zero]
    by_cases single : bitSize v = 1
    · simpa [single] using one
    have fits : bitSize v * p.num.natAbs ≤ maxIntegerBits := not_lt.mp (not_and.mp small (by omega))
    calc (2 ^ bitSize v - 1) ^ p.num.natAbs < (2 ^ bitSize v) ^ p.num.natAbs :=
          Nat.pow_lt_pow_left (Nat.sub_lt (by positivity) one_pos) positive.ne'
      _ = 2 ^ (bitSize v * p.num.natAbs) := (pow_mul ..).symm
      _ ≤ 2 ^ maxIntegerBits := Nat.pow_le_pow_right (by decide) fits
  exact fitsIn_of_abs quotient above below (le.trans_lt limited) (le'.trans_lt limited)

/-- The size of a positive integer under a root is at most twice the estimate. -/
theorem radicand_lt {n d k degree : ℕ} (positive : n ≠ 0) (some : k ≠ 0) :
    (n * d ^ (degree - 1)) ^ k <
      2 ^ (2 * (k * (bitLength n + (degree - 1) * (bitLength d - 1)))) := by
  have bits := bitLength_pos positive
  calc (n * d ^ (degree - 1)) ^ k
      ≤ (n * (2 ^ (2 * (bitLength d - 1))) ^ (degree - 1)) ^ k := by
        gcongr
        exact le_two_pow_pred_bitLength d
    _ < (2 ^ bitLength n * (2 ^ (2 * (bitLength d - 1))) ^ (degree - 1)) ^ k := by
        gcongr
        exact lt_two_pow_bitLength n
    _ = 2 ^ (k * (bitLength n + (degree - 1) * (2 * (bitLength d - 1)))) := by
        rw [← pow_mul, ← pow_add, ← pow_mul]
        ring_nf
    _ ≤ 2 ^ (2 * (k * (bitLength n + (degree - 1) * (bitLength d - 1)))) := by
        refine Nat.pow_le_pow_right (by decide) ?_
        nlinarith [Nat.zero_le (k * bitLength n)]

theorem exists_le_splitPower {value degree : ℕ} (proper : 0 < degree) (positive : value ≠ 0) :
    (splitPower value degree).1 ≠ 0 ∧ (splitPower value degree).1 ≤ value ∧ (splitPower value degree).2 ≤ value := by
  have product := splitPower_eq value proper
  generalize splitPower value degree = parts at product
  have both : parts.1 ^ degree ≠ 0 ∧ parts.2 ≠ 0 := by rwa [← product, mul_ne_zero_iff] at positive
  have outside : parts.1 ≠ 0 := (pow_ne_zero_iff proper.ne').mp both.1
  refine ⟨outside, ?_, ?_⟩
  · calc parts.1 ≤ parts.1 ^ degree := Nat.le_self_pow proper.ne' _
      _ ≤ parts.1 ^ degree * parts.2 := Nat.le_mul_of_pos_right _ (Nat.pos_of_ne_zero both.2)
      _ = value := product
  · calc parts.2 ≤ parts.1 ^ degree * parts.2 := Nat.le_mul_of_pos_left _ (Nat.pos_of_ne_zero both.1)
      _ = value := product

/-- The integers of a root, where its estimate passes: in the coefficient, and under the root. -/
theorem root_bits {k : ℕ} (positive : 0 < v) (some : k ≠ 0) (degree : 2 ≤ q.den)
    (passed : q.floor.natAbs * bitSize v +
      k * (bitLength v.num.natAbs + (q.den - 1) * (bitLength v.den - 1)) ≤ maxIntegerBits)
    {parts : ℕ × ℕ} (split : splitPower ((v.num.natAbs * v.den ^ (q.den - 1)) ^ k) q.den = parts) :
    FitsIn (2 * maxIntegerBits) (v ^ q.floor / (v.den : ℚ) ^ k * parts.1) ∧ parts.2 < 2 ^ (2 * maxIntegerBits) := by
  have someN : v.num.natAbs ≠ 0 := by simpa using positive.ne'
  have present : (v.num.natAbs * v.den ^ (q.den - 1)) ^ k ≠ 0 :=
    pow_ne_zero _ (mul_ne_zero someN (pow_ne_zero _ v.den_nz))
  obtain ⟨outside, leOut, leIn⟩ := exists_le_splitPower q.den_pos present
  rw [split] at outside leOut leIn
  obtain ⟨num, den⟩ := natAbs_le_bitSize v
  obtain ⟨a, b, quotient, above, beneath, small, small'⟩ := exists_abs_zpow positive.ne'
    (lt_two_pow_of_bitLength_le num).le (lt_two_pow_of_bitLength_le den).le q.floor
  rw [← pow_mul, Nat.mul_comm] at small small'
  have radicand := @radicand_lt v.num.natAbs v.den k q.den someN some
  have denominator := Nat.pow_le_pow_left (le_two_pow_pred_bitLength v.den) k
  rw [← pow_mul] at denominator
  have shape : |v ^ q.floor / (v.den : ℚ) ^ k * parts.1| = ((a * parts.1 : ℕ) : ℚ) / (b * v.den ^ k : ℕ) := by
    rw [abs_mul, abs_div, quotient, abs_pow, Nat.abs_cast, Nat.abs_cast]
    push_cast
    field_simp
  have estimate : 2 * (bitLength v.den - 1) * k <
      2 * (k * (bitLength v.num.natAbs + (q.den - 1) * (bitLength v.den - 1))) := by
    have first : k ≤ k * bitLength v.num.natAbs := Nat.le_mul_of_pos_right k (bitLength_pos someN)
    have second : k * (bitLength v.den - 1) ≤ k * ((q.den - 1) * (bitLength v.den - 1)) :=
      Nat.mul_le_mul_left k (Nat.le_mul_of_pos_left _ (by omega))
    rw [Nat.mul_add, Nat.mul_assoc, Nat.mul_comm _ k]
    omega
  generalize q.floor.natAbs * bitSize v = w at passed small small'
  generalize k * (bitLength v.num.natAbs + (q.den - 1) * (bitLength v.den - 1)) = size at passed radicand estimate
  refine ⟨fitsIn_of_abs shape (mul_ne_zero above outside) (mul_ne_zero beneath (pow_ne_zero _ v.den_nz)) ?_ ?_, ?_⟩
  · calc a * parts.1 < 2 ^ w * 2 ^ (2 * size) :=
          Nat.mul_lt_mul_of_le_of_lt small (leOut.trans_lt radicand) (by positivity)
      _ = 2 ^ (w + 2 * size) := (pow_add ..).symm
      _ ≤ 2 ^ (2 * maxIntegerBits) := Nat.pow_le_pow_right (by decide) (by omega)
  · calc b * v.den ^ k ≤ 2 ^ w * 2 ^ (2 * (bitLength v.den - 1) * k) := Nat.mul_le_mul small' denominator
      _ = 2 ^ (w + 2 * (bitLength v.den - 1) * k) := (pow_add ..).symm
      _ < 2 ^ (2 * maxIntegerBits) := Nat.pow_lt_pow_right (by decide) (by omega)
  · exact (leIn.trans_lt radicand).trans_le (Nat.pow_le_pow_right (by decide) (by omega))

/-- A root that is returned has integers within twice the limit. -/
theorem hasBits_rootOfPositive (positive : 0 < v) (fractional : q.den ≠ 1)
    (returned : rootOfPositive v q = .ok r) : HasBits (2 * maxIntegerBits) r := by
  obtain ⟨den, -⟩ := exponent_parts q
  have some : (q - (q.floor : ℚ)).num.natAbs ≠ 0 := by
    intro zero
    have whole : q - (q.floor : ℚ) = 0 := by simpa using zero
    exact fractional (by rw [← den, whole]; rfl)
  have degree : 2 ≤ q.den := by
    have := q.den_pos
    omega
  unfold rootOfPositive at returned
  obtain ⟨guard, returned⟩ := Outcome.passed returned
  rw [den] at guard
  simp only [den, Rational.power_eq, positive.ne', and_false, if_false, bind, Except.bind, pure,
    Except.pure, Except.ok.injEq, Nat.pow_eq, Rat.mkRat_one, Int.natCast_pow, Int.cast_pow,
    Int.cast_natCast] at returned
  generalize split : splitPower ((v.num.natAbs * v.den ^ (q.den - 1)) ^ (q - (q.floor : ℚ)).num.natAbs) q.den =
    parts at returned
  obtain ⟨coefficient, inside⟩ := root_bits positive some degree (not_lt.mp guard) split
  rw [← returned]
  split
  next one => exact .number coefficient
  next several =>
    refine .symbol coefficient fun _ => ?_
    rw [Text.integerOf_toString, Int.natAbs_natCast]
    exact inside

theorem HasBits.withCoeff {e : Expr} (has : HasBits bits e) {c : ℚ} (fits : FitsIn bits c) :
    HasBits bits (e.withCoeff c) := by
  cases has with
  | number => exact .number fits
  | symbol _ base => exact .symbol fits base
  | product _ each => exact .product fits each

theorem HasBits.mono {e : Expr} (has : HasBits bits e) {more : ℕ} (le : bits ≤ more) : HasBits more e := by
  induction has with
  | number fits => exact .number (fits.mono le)
  | symbol fits base => exact .symbol (fits.mono le) fun text =>
      (base text).trans_le (Nat.pow_le_pow_right (by decide) le)
  | product fits _ ih => exact .product (fits.mono le) ih

theorem HasBits.coeff {e : Expr} (has : HasBits bits e) : FitsIn bits e.coeff := by
  cases has <;> assumption

/-- A symbol with a sign adds no greater integers than it has itself. -/
theorem HasBits.timesSymbol {m : Expr} {d p : ℚ} {name : String} (has : HasBits bits m) (some : 0 < bits)
    (sign : d = 1 ∨ d = -1) (base : isIntegerText name = true → (integerOf name).natAbs < 2 ^ bits) :
    HasBits bits (timesSymbol m (.symbol d name p)) := by
  have signed {c : ℚ} (fits : FitsIn bits c) : FitsIn bits (c * d) := by
    rcases sign with rfl | rfl
    · rwa [mul_one]
    · rw [mul_neg_one]
      exact fits.neg
  have apart : HasBits bits (.product (m.coeff * d) [m.unit, (Expr.symbol d name p).unit]) := by
    refine .product (signed has.coeff) fun f member => ?_
    simp only [List.mem_cons, List.not_mem_nil, or_false] at member
    rcases member with rfl | rfl
    · exact has.withCoeff (fitsIn_one some)
    · exact .symbol (fitsIn_one some) base
  cases has with
  | number fits =>
    simp only [Expr.timesSymbol, scale]
    split
    · exact .number (fitsIn_zero some)
    · rw [mul_comm]
      exact .symbol (signed fits) base
  | symbol => exact apart
  | product => exact apart

theorem hasBits_whole (whole : q.den = 1) (returned : powNumber v q = .ok r) : HasBits maxIntegerBits r := by
  rcases eq_or_ne v 0 with rfl | nonzero
  · unfold powNumber at returned
    rw [if_pos (by simpa [isInteger] using whole)] at returned
    obtain ⟨_, returned⟩ := Outcome.passed returned
    obtain ⟨_, returned⟩ := Outcome.passed returned
    obtain ⟨power, raised, returned⟩ := Outcome.bind_ok returned
    cases returned
    rw [power_eq] at raised
    obtain ⟨_, raised⟩ := Outcome.passed raised
    cases raised
    refine .number ?_
    rw [zero_zpow_eq]
    split
    · exact fitsIn_one (by decide)
    · exact fitsIn_zero (by decide)
  · rw [powNumber_whole whole nonzero] at returned
    obtain ⟨small, returned⟩ := Outcome.passed returned
    cases returned
    exact .number (fitsIn_zpow nonzero small)

theorem hasBits_fractional (fractional : q.den ≠ 1) (returned : powNumber v q = .ok r) :
    HasBits (2 * maxIntegerBits) r := by
  have some : 0 < 2 * maxIntegerBits := by decide
  unfold powNumber at returned
  rw [if_neg (by simpa [isInteger] using fractional)] at returned
  split at returned
  · cases returned
    exact .number (fitsIn_zero some)
  split at returned
  · cases returned
    exact .number (fitsIn_one some)
  split at returned
  next positive => exact hasBits_rootOfPositive positive fractional returned
  next zero _ negative =>
    have positive : 0 < -v := neg_pos.mpr (lt_of_le_of_ne (not_lt.mp negative) zero)
    obtain ⟨magnitude, found, returned⟩ := Outcome.bind_ok returned
    have root := hasBits_rootOfPositive positive fractional found
    split at returned
    · cases returned
      split
      · exact root
      · exact root.withCoeff root.coeff.neg
    split at returned
    next half =>
      cases returned
      have odd : q.num % 2 = 1 := by
        have reduced := q.reduced
        rw [half, Nat.coprime_two_right, Int.natAbs_odd, Int.odd_iff] at reduced
        exact reduced
      rcases powerOfI_of_odd odd with same | same <;> rw [same]
      · exact root.timesSymbol some (.inl rfl) fun text => absurd text (by decide)
      · exact root.timesSymbol some (.inr rfl) fun text => absurd text (by decide)
    next =>
      cases returned
      refine root.timesSymbol some (.inl rfl) fun _ => ?_
      have one : (integerOf "-1").natAbs = 1 := by decide
      rw [one]
      exact Nat.one_lt_two_pow some.ne'

/-- Every exact power that is returned has integers within twice the limit on bits, and within the limit itself
if the exponent is whole. -/
theorem powNumber_hasBits (returned : powNumber v q = .ok r) :
    HasBits (2 * maxIntegerBits) r ∧ (q.den = 1 → HasBits maxIntegerBits r) := by
  by_cases whole : q.den = 1
  · have within := hasBits_whole whole returned
    exact ⟨within.mono (by decide), fun _ => within⟩
  · exact ⟨hasBits_fractional whole returned, fun same => absurd same whole⟩

end Expr
end ExactAlgebra
