import ExactAlgebra.Proofs.RootExtraction
import ExactAlgebra.Proofs.TwoTermRoots
import Mathlib

/-! Sines at rational multiples of `pi`. Only the fractional part of the multiple decides whether there is a
value in the table; the value is the sine, at multiples of any size and sign. The roots in the table are those
that the arithmetic computes. -/
namespace ExactAlgebra.Elementary
open ExactAlgebra.Expr

variable {k : ℚ}

/-- The root of a number that no square divides is left as it is. -/
theorem rootOfPositive_of_squarefree {n : ℕ} (large : 2 ≤ n) (squarefree : Squarefree n)
    (short : Rational.bitLength n ≤ maxIntegerBits) :
    rootOfPositive n (1 / 2) = .ok (symbol 1 (toString n) (1 / 2)) := by
  obtain ⟨half, num, den, floor⟩ := mkRat_one_eq one_lt_two
  have split : splitPower (Nat.pow (n * Nat.pow 1 (2 - 1)) 1) 2 = (1, n) := by
    have same : Nat.pow (n * Nat.pow 1 (2 - 1)) 1 = n := by simp
    rw [same, splitPower_of_squarefree squarefree le_rfl]
  have exponent : (1 / 2 : ℚ) = mkRat 1 2 := by rw [half]; norm_num
  have bits : Rational.bitLength 1 = 1 := by decide +kernel
  rw [exponent]
  unfold rootOfPositive
  simp only [floor, Int.cast_zero, sub_zero, num, den, Int.natAbs_one, Rat.num_natCast, Rat.den_natCast,
    Int.natAbs_natCast, Int.natAbs_zero, zero_mul, zero_add, one_mul, bits, Nat.sub_self, mul_zero, add_zero,
    not_lt.mpr short, if_false, split, Rational.power_eq]
  have coefficient : (n : ℚ) ^ (0 : ℤ) / mkRat (Nat.pow 1 1 : ℕ) 1 * (1 : ℕ) = 1 := by simp [Rat.mkRat_one]
  rw [if_neg (by simp)]
  change Except.ok (if n = 1 then _ else _) = _
  rw [if_neg (by omega : n ≠ 1), coefficient]

/-- Half of such a root is what multiplication makes of one half and the root. -/
theorem mul_half_sqrt {n : ℕ} (large : 2 ≤ n) (squarefree : Squarefree n)
    (short : Rational.bitLength n ≤ maxIntegerBits) :
    (do Expr.mul (number (1 / 2)) (← sqrt (number n))) = .ok (halfRoot n) := by
  have root : sqrt (number n) = .ok (symbol 1 (toString n) (1 / 2)) := by
    have nonzero : (n : ℚ) ≠ 0 := by norm_cast; omega
    have notOne : (n : ℚ) ≠ 1 := by norm_cast; omega
    have positive : (0 : ℚ) < n := by norm_cast; omega
    rw [sqrt_number, powNumber, if_neg (by simp [Rational.isInteger]), if_neg nonzero, if_neg notOne,
      if_pos positive, rootOfPositive_of_squarefree large squarefree short]
  obtain ⟨m, limit⟩ := enough_for_one (number (1 / 2)) (symbol 1 (toString n) (1 / 2))
  rw [root]
  change Expr.mul _ _ = _
  rw [Expr.mul, limit, mulWithin_number _ (by norm_num) rfl, scale, if_neg (by norm_num)]
  simp [halfRoot, withCoeff, coeff]

/-- Taking off full turns, and then a half turn if one is left, leaves the fractional part. -/
theorem fract_eq_of_turns (k : ℚ) :
    Int.fract k = if 1 ≤ k - 2 * ((k / 2).floor : ℚ) then k - 2 * ((k / 2).floor : ℚ) - 1
      else k - 2 * ((k / 2).floor : ℚ) := by
  have low : (((k / 2).floor : ℤ) : ℚ) ≤ k / 2 := Int.floor_le (k / 2)
  have high : k / 2 < (((k / 2).floor : ℤ) : ℚ) + 1 := Int.lt_floor_add_one (k / 2)
  split
  next flipped =>
    refine Int.fract_eq_iff.mpr ⟨by linarith, by linarith, 2 * (k / 2).floor + 1, ?_⟩
    push_cast
    ring
  next straight =>
    refine Int.fract_eq_iff.mpr ⟨by linarith, by linarith [not_le.mp straight], 2 * (k / 2).floor, ?_⟩
    push_cast
    ring

theorem isSome_sineOfPiMultiple? (k : ℚ) :
    (sineOfPiMultiple? k).isSome = (firstQuadrant? (mirror (Int.fract k))).isSome := by
  rw [sineOfPiMultiple?_eq, fract_eq_of_turns]
  split
  · exact Option.isSome_map
  · rfl

/-- The multiples of `pi` in the table: those up to a right angle. -/
def quadrantAngles : Finset ℚ := {0, 1 / 6, 1 / 4, 1 / 3, 1 / 2}

/-- The multiples of `pi` below a half turn that have an exact sine. -/
def tabulatedAngles : Finset ℚ := {0, 1 / 6, 1 / 4, 1 / 3, 1 / 2, 2 / 3, 3 / 4, 5 / 6}

theorem isSome_firstQuadrant? : (firstQuadrant? k).isSome ↔ k ∈ quadrantAngles := by
  simp only [firstQuadrant?, quadrantAngles, Finset.mem_insert, Finset.mem_singleton]
  grind

/-- Mirrored at a right angle, the angles of the table are those below a half turn. -/
theorem mirror_mem_iff (small : k < 1) : mirror k ∈ quadrantAngles ↔ k ∈ tabulatedAngles := by
  simp only [tabulatedAngles, quadrantAngles, mirror, Finset.mem_insert, Finset.mem_singleton]
  grind

/-- A sine is exact at eight multiples of `pi` below a half turn, and at what differs from these by half
turns. It is then the sine of the angle, whatever else names stand for. -/
theorem sineOfPiMultiple?_exact (k : ℚ) :
    ((sineOfPiMultiple? k).isSome ↔ Int.fract k ∈ tabulatedAngles) ∧
      ∀ v ∈ sineOfPiMultiple? k, ∀ ρ, complexValue ρ v = (Real.sin (k * Real.pi) : ℝ) := by
  refine ⟨?_, fun v found ρ => ?_⟩
  · rw [isSome_sineOfPiMultiple?, isSome_firstQuadrant?]
    exact mirror_mem_iff (Int.fract_lt_one k)
  · have stands : SurdOf true 0 ρ (Real.sin (k * Real.pi) : ℝ) v := surdOf_sineOfPiMultiple? found
    exact stands.value

/-- Full turns are taken off, the half turn changes the sign, and three quarters of the other are mirrored. -/
theorem sine_of_seven_quarters_and_turns :
    sineOfPiMultiple? (10 ^ 30 + 7 / 4) = some (neg (halfRoot 2)) ∧
      Int.fract (10 ^ 30 + 7 / 4 : ℚ) ∈ tabulatedAngles ∧
      complexValue ⟨fun _ => 0, fun _ _ => 0⟩ (neg (halfRoot 2)) =
        (Real.sin ((10 ^ 30 + 7 / 4 : ℚ) * Real.pi) : ℝ) := by
  have found : sineOfPiMultiple? (10 ^ 30 + 7 / 4) = some (neg (halfRoot 2)) := by
    have turns : ((10 ^ 30 + 7 / 4 : ℚ) / 2).floor = 5 * 10 ^ 29 := by decide +kernel
    rw [sineOfPiMultiple?_eq, turns]
    norm_num [mirror, firstQuadrant?]
  obtain ⟨tabulated, value⟩ := sineOfPiMultiple?_exact (10 ^ 30 + 7 / 4)
  exact ⟨found, tabulated.mp (Option.isSome_of_mem found), value _ found _⟩

end ExactAlgebra.Elementary
