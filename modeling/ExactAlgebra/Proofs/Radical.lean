import ExactAlgebra.Proofs.Decimal
import ExactAlgebra.Proofs.IntegerRoot
import ExactAlgebra.Proofs.Computation
import ExactAlgebra.Proofs.WellFormed
import Mathlib

/-! Exact powers of numbers. Whole powers are numbers; a root that is left over is the root of a
positive integer with a nonzero coefficient, so what comes out is well formed. -/
namespace ExactAlgebra

namespace Rational

theorem abs_eq_abs (x : ℚ) : abs x = |x| := by
  rw [abs]
  split
  next negative => exact (abs_of_neg negative).symm
  next nonnegative => exact (abs_of_nonneg (not_lt.mp nonnegative)).symm

theorem abs_eq_natAbs_div (a : ℚ) : |a| = (a.num.natAbs : ℚ) / a.den := by
  conv_lhs => rw [← Rat.num_div_den a]
  rw [abs_div, Nat.abs_cast, Nat.cast_natAbs, Int.cast_abs]

theorem powerOf_eq (a : Rat) (n : Nat) : powerOf a n = a ^ n := by
  induction n using Nat.strongRecOn generalizing a with
  | ind n ih =>
    rw [powerOf]
    split
    next zero => simp [zero]
    next positive =>
      have half := ih (n / 2) (by omega) (a * a)
      simp only [half]
      simp only [← pow_two, ← pow_mul]
      split
      next odd =>
        rw [← pow_succ']
        congr 1
        omega
      next even =>
        congr 1
        omega

/-- An integer power, where it exists, is the power. -/
theorem power_eq (a : Rat) (n : Int) :
    power a n = if n < 0 ∧ a = 0 then .error .divisionByZero else .ok (a ^ n) := by
  unfold power
  split
  next negative =>
    have size : n = -(n.natAbs : ℤ) := by omega
    by_cases zero : a = 0
    · simp [zero, invert, negative, bind, Except.bind]
    · simp only [invert, zero, if_false, negative, and_false, bind, Except.bind, pure, Except.pure,
        powerOf_eq]
      nth_rewrite 2 [size]
      rw [zpow_neg, zpow_natCast, inv_pow]
  next nonnegative =>
    have size : n = (n.natAbs : ℤ) := by omega
    rw [if_neg (fun both => nonnegative both.1), powerOf_eq]
    nth_rewrite 2 [size]
    rw [zpow_natCast]

end Rational

namespace Expr

/-- A positive number, or the root of an integer with a nonzero coefficient. -/
inductive IsRoot : Expr → Prop
  | number (c : Rat) : IsRoot (number c)
  | root (c : Rat) (n degree : Nat) : c ≠ 0 → 2 ≤ degree →
      IsRoot (symbol c (toString n) (mkRat 1 degree))

theorem mkRat_one_eq {n : ℕ} (several : 1 < n) :
    mkRat 1 n = (n : ℚ)⁻¹ ∧ (mkRat 1 n).num = 1 ∧ (mkRat 1 n).den = n ∧ (mkRat 1 n).floor = 0 := by
  have inverse : mkRat 1 n = (n : ℚ)⁻¹ := by simp [Rat.mkRat_eq_div]
  have small : (n : ℚ)⁻¹ < 1 := inv_lt_one_of_one_lt₀ (by exact_mod_cast several)
  refine ⟨inverse, ?_, ?_, ?_⟩
  · rw [inverse, Rat.inv_natCast_num_of_pos (by omega)]
  · rw [inverse, Rat.inv_natCast_den_of_pos (by omega)]
  · rw [inverse]
    exact Int.floor_eq_zero_iff.mpr ⟨by positivity, small⟩

theorem IsRoot.wellFormed {e : Expr} (root : IsRoot e) : e.WellFormed := by
  cases root with
  | number => trivial
  | root c n degree nonzero large =>
    have fractional : (mkRat 1 degree).den ≠ 1 := by
      rw [(mkRat_one_eq large).2.2.1]
      omega
    refine ⟨nonzero, ?_, .inr (Text.isIntegerText_toString n), fun _ => fractional,
      fun _ whole => absurd whole fractional⟩
    intro zero
    rw [zero] at fractional
    exact fractional rfl

/-- A positive number `c`, or `c` times the root of an integer that is left under it, whose power with the
degree of the root is the given number. -/
inductive IsRootOf (x : ℚ) (degree : ℕ) : Expr → Prop
  | number {c : ℚ} : 0 < c → c ^ degree = x → IsRootOf x degree (number c)
  | root {c : ℚ} {n : ℕ} : 0 < c → 2 ≤ n → c ^ degree * n = x →
    IsRootOf x degree (symbol c (toString n) (mkRat 1 degree))

/-- The parts of an exponent: its integer part, and a fraction with the same denominator. -/
theorem exponent_parts (q : ℚ) :
    (q - (q.floor : ℚ)).den = q.den ∧
      q.num = q.floor * q.den + ((q - (q.floor : ℚ)).num.natAbs : ℤ) := by
  have den : (q - (q.floor : ℚ)).den = q.den := Rat.sub_intCast_den q q.floor
  refine ⟨den, ?_⟩
  have nonnegative : 0 ≤ q - (q.floor : ℚ) := sub_nonneg.mpr (Int.floor_le q)
  rw [Int.natAbs_of_nonneg (Rat.num_nonneg.mpr nonnegative)]
  have part := Rat.mul_den_eq_num (q - (q.floor : ℚ))
  rw [den, sub_mul, Rat.mul_den_eq_num] at part
  have whole : (q.num : ℚ) = q.floor * q.den + (q - (q.floor : ℚ)).num := by rw [← part]; ring
  exact_mod_cast whole

/-- The root of a positive number is a root of the whole power of it. -/
theorem rootOfPositive_isRootOf {v q : ℚ} (positive : 0 < v) {w : Expr}
    (returned : rootOfPositive v q = .ok w) : IsRootOf (v ^ q.num) q.den w := by
  obtain ⟨den, num⟩ := exponent_parts q
  unfold rootOfPositive at returned
  obtain ⟨_, returned⟩ := Outcome.passed returned
  simp only [den, Rational.power_eq, positive.ne', and_false, if_false, bind, Except.bind, pure,
    Except.pure, Except.ok.injEq] at returned
  set k := (q - (q.floor : ℚ)).num.natAbs
  set split := splitPower (Nat.pow (v.num.natAbs * Nat.pow v.den (q.den - 1)) k) q.den
  set c := v ^ q.floor / mkRat (Nat.pow v.den k) 1 * (split.1 : ℚ) with hc
  have product : split.1 ^ q.den * split.2 = (v.num.natAbs * v.den ^ (q.den - 1)) ^ k :=
    splitPower_eq _ q.den_pos
  have below : (v.den : ℚ) ≠ 0 := by exact_mod_cast v.den_nz
  have above : (v.num.natAbs : ℚ) = v * v.den := by
    rw [Rat.mul_den_eq_num, ← Int.cast_natCast,
      Int.natAbs_of_nonneg (Rat.num_nonneg.mpr positive.le)]
  have radicand : ((v.num.natAbs * v.den ^ (q.den - 1) : ℕ) : ℚ) = v * v.den ^ q.den := by
    push_cast
    rw [above, mul_assoc, ← pow_succ', Nat.sub_add_cancel q.den_pos]
  have present : split.1 ^ q.den * split.2 ≠ 0 := by
    rw [product]
    have : v.num.natAbs ≠ 0 := by simpa using positive.ne'
    exact pow_ne_zero _ (Nat.mul_ne_zero this (pow_ne_zero _ v.den_nz))
  have outside : split.1 ≠ 0 := fun zero => by simp [zero, q.den_nz] at present
  have coefficient : c = v ^ q.floor / (v.den : ℚ) ^ k * split.1 := by
    rw [hc, Rat.mkRat_one]
    have power : Nat.pow v.den k = v.den ^ k := rfl
    rw [power]
    push_cast
    rfl
  have positiveC : 0 < c := by
    rw [coefficient]
    have : (0 : ℚ) < v.den := by exact_mod_cast v.den_pos
    have : (0 : ℚ) < split.1 := by exact_mod_cast Nat.pos_of_ne_zero outside
    positivity
  have value : c ^ q.den * split.2 = v ^ q.num := by
    have drawn : (split.1 : ℚ) ^ q.den * split.2 = (v * v.den ^ q.den) ^ k := by
      rw [← radicand]
      exact_mod_cast product
    calc c ^ q.den * split.2
        = (v ^ q.floor) ^ q.den / ((v.den : ℚ) ^ k) ^ q.den * (split.1 ^ q.den * split.2) := by
          rw [coefficient, mul_pow, div_pow]
          ring
      _ = (v ^ q.floor) ^ q.den * v ^ k := by
          rw [drawn, mul_pow, ← pow_mul, ← pow_mul, Nat.mul_comm q.den k]
          field_simp
      _ = v ^ q.num := by
          rw [num, zpow_add₀ positive.ne', zpow_mul, zpow_natCast, zpow_natCast]
  rw [← returned]
  split
  next one =>
    rw [one, Nat.cast_one, mul_one] at value
    exact .number positiveC value
  next several =>
    have left : split.2 ≠ 0 := fun zero => present (by rw [zero, mul_zero])
    exact .root positiveC (by omega) value

theorem rootOfPositive_isRoot {value exponent : Rat} {r : Expr} (positive : 0 < value)
    (fractional : exponent.den ≠ 1) (returned : rootOfPositive value exponent = .ok r) :
    IsRoot r := by
  cases rootOfPositive_isRootOf positive returned with
  | number => exact .number _
  | root positive =>
    refine .root _ _ _ positive.ne' ?_
    have := exponent.den_pos
    omega

theorem powerOfI_of_odd {n : Int} (odd : n % 2 = 1) :
    powerOfI n = symbol 1 "i" 1 ∨ powerOfI n = symbol (-1) "i" 1 := by
  have residue : n % 4 = 1 ∨ n % 4 = 3 := by omega
  rcases residue with one | three
  · exact .inl (by simp [powerOfI, one, bare])
  · exact .inr (by simp [powerOfI, three])

/-- The base key of a symbol is its name, in parentheses if it begins with a sign. -/
theorem baseKey_symbol (c : Rat) (name : String) (p : Rat) :
    (symbol c name p).baseKey = if name.startsWith '-' then "(" ++ name ++ ")" else name := rfl

theorem baseKey_root (c : Rat) (n : Nat) (p : Rat) :
    (symbol c (toString n) p).baseKey = toString n := by
  rw [baseKey_symbol, Text.startsWith_minus_toString]
  rfl

theorem toString_ne_of_mem {n : Nat} {key : String} {c : Char} (member : c ∈ key.toList)
    (other : c.isDigit = false) : toString n ≠ key := by
  rintro rfl
  rw [Text.isDigit_of_mem_toString member] at other
  cases other

/-- A root of a positive integer times a symbol of another base. -/
theorem timesSymbol_wellFormed {m : Expr} {c : Rat} {name : String} {p : Rat} (root : IsRoot m)
    (formed : (symbol c name p).WellFormed)
    (other : ∃ x ∈ (symbol c name p).baseKey.toList, x.isDigit = false) :
    (timesSymbol m (symbol c name p)).WellFormed := by
  have rootFormed := root.wellFormed
  obtain ⟨x, inside, noDigit⟩ := other
  cases root with
  | number d => exact formed.scale d
  | root d n degree nonzero large =>
    refine ⟨mul_ne_zero nonzero formed.1, ⟨by simp, ?_, ?_, ?_⟩, ?_⟩
    · intro f member
      simp only [List.mem_cons, List.not_mem_nil, or_false] at member
      rcases member with rfl | rfl <;> rfl
    · have keys : ([(symbol d (toString n) (mkRat 1 degree)).unit, (symbol c name p).unit].map
          baseKey) = [toString n, (symbol c name p).baseKey] := by
        have first : (symbol d (toString n) (mkRat 1 degree)).unit.baseKey = toString n :=
          baseKey_root 1 n _
        rw [List.map_cons, first]
        rfl
      rw [keys]
      simpa using toString_ne_of_mem inside noDigit
    · intro f member
      simp only [List.mem_cons, List.not_mem_nil, or_false] at member
      rcases member with rfl | rfl <;> exact ⟨rfl, rfl, rfl⟩
    · exact ⟨rootFormed.unit, formed.unit, trivial⟩

theorem powNumber_wellFormed {value exponent : Rat} {r : Expr}
    (returned : powNumber value exponent = .ok r) : r.WellFormed := by
  unfold powNumber at returned
  split at returned
  · obtain ⟨_, returned⟩ := Outcome.passed returned
    obtain ⟨_, returned⟩ := Outcome.passed returned
    obtain ⟨power, _, returned⟩ := Outcome.bind_ok returned
    cases returned
    trivial
  next fractional =>
    have fractional : exponent.den ≠ 1 := by simpa [Rational.isInteger] using fractional
    split at returned
    · cases returned
      trivial
    split at returned
    · cases returned
      trivial
    split at returned
    next positive => exact (rootOfPositive_isRoot positive fractional returned).wellFormed
    next zero _ negative =>
      have positive : 0 < -value := by
        have := lt_of_le_of_ne (not_lt.mp negative) zero
        linarith
      obtain ⟨magnitude, found, returned⟩ := Outcome.bind_ok returned
      have root := rootOfPositive_isRoot positive fractional found
      split at returned
      · cases returned
        split
        · exact root.wellFormed
        · exact root.wellFormed.neg
      split at returned
      next half =>
        cases returned
        have odd : exponent.num % 2 = 1 := by
          have reduced := exponent.reduced
          rw [half, Nat.coprime_two_right, Int.natAbs_odd, Int.odd_iff] at reduced
          exact reduced
        rcases powerOfI_of_odd odd with same | same <;> rw [same]
        · exact timesSymbol_wellFormed root ⟨by decide, by decide, .inl (by decide), by decide,
            by decide⟩ ⟨'i', by decide, by decide⟩
        · exact timesSymbol_wellFormed root ⟨by decide, by decide, .inl (by decide), by decide,
            by decide⟩ ⟨'i', by decide, by decide⟩
      next =>
        cases returned
        have den : (exponent - 2 * ((exponent / 2).floor : Rat)).den = exponent.den := by
          have := Rat.sub_intCast_den exponent (2 * (exponent / 2).floor)
          push_cast at this
          exact this
        refine timesSymbol_wellFormed root ⟨one_ne_zero, ?_, .inr (by decide), ?_, ?_⟩
          ⟨'-', ?_, by decide⟩
        · intro zero
          rw [zero] at den
          exact fractional den.symm
        · rw [den]
          exact fun _ => fractional
        · intro no
          exact absurd no (by decide)
        · rw [baseKey_symbol]
          decide

end Expr
end ExactAlgebra
