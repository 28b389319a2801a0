import ExactAlgebra.Proofs.RationalField
import ExactAlgebra.Proofs.Radical
import ExactAlgebra.Rational.Approximation
import Mathlib

/-! Best approximation by continued fractions. The number lies between the last convergent that the bound
allows and the greatest mediant that it allows; a fraction strictly between those two has a denominator above
the bound, so one of the two is nearest. -/
namespace ExactAlgebra.Rational

/-- No fraction with a denominator of at most `bound` is nearer to `x` than `r`, which is one of them. -/
structure IsNearest (bound : ℤ) (x r : ℚ) : Prop where
  bounded : (r.den : ℤ) ≤ bound
  nearest : ∀ a b : ℤ, 1 ≤ b → b ≤ bound → |r - x| ≤ |(a / b : ℚ) - x|

variable {bound : ℤ} {x : ℚ} {c : Convergents} {side n : ℤ} {d : ℕ}

theorem abs_sub_le_of_between {x y z : ℚ} (between : 0 ≤ (z - y) * (x - z)) : |z - x| ≤ |y - x| := by
  rw [← sq_le_sq]
  nlinarith [sq_nonneg (z - y)]

/-- Two fractions with determinant one and a number `x` between them: `p / q` lies at `below` on one side of
it, and `p' / q'` at `above` on the other, both as multiples of the least distance that the denominators allow. -/
structure Encloses (x : ℚ) (side p q p' q' below above : ℤ) : Prop where
  unit : side * side = 1
  determinant : p * q' - p' * q = side
  lower : x.num * q - x.den * p = -(side * below)
  upper : x.num * q' - x.den * p' = side * above
  below_nonneg : 0 ≤ below
  above_nonneg : 0 ≤ above
  positive : 0 < q
  positive' : 0 < q'

theorem sub_fraction_eq (x : ℚ) (p : ℤ) {q : ℤ} (positive : 0 < q) :
    x - (p / q : ℚ) = ((x.num * q - x.den * p : ℤ) : ℚ) / (x.den * q) := by
  have nonzero : (q : ℚ) ≠ 0 := Int.cast_ne_zero.mpr positive.ne'
  have proper : (x.den : ℚ) ≠ 0 := Nat.cast_ne_zero.mpr x.den_nz
  conv_lhs => rw [← Rat.num_div_den x, div_sub_div _ _ proper nonzero]
  push_cast
  rfl

theorem fraction_sub_eq (p r : ℤ) {q s : ℤ} (positive : 0 < q) (positive' : 0 < s) :
    (p / q : ℚ) - (r / s : ℚ) = ((p * s - q * r : ℤ) : ℚ) / (q * s) := by
  rw [div_sub_div _ _ (Int.cast_ne_zero.mpr positive.ne') (Int.cast_ne_zero.mpr positive'.ne')]
  push_cast
  rfl

/-- A fraction on the far side of `p / q`, seen from `x`, is farther from `x`. -/
theorem abs_sub_le_of_beyond {p q r s : ℤ} (positive : 0 < q) (positive' : 0 < s)
    (beyond : 0 ≤ (p * s - q * r) * (x.num * q - x.den * p)) : |(p / q : ℚ) - x| ≤ |(r / s : ℚ) - x| := by
  refine abs_sub_le_of_between ?_
  rw [fraction_sub_eq p r positive positive', sub_fraction_eq x p positive, div_mul_div_comm]
  have below : (0 : ℚ) < q * s * (x.den * q) := by
    have := x.den_pos
    positivity
  exact div_nonneg (by exact_mod_cast beyond) below.le

/-- Between the two fractions there is none with a denominator below the sum of theirs, so none of those is
nearer to `x` than both. -/
theorem Encloses.nearest {p q p' q' below above r s : ℤ} (encloses : Encloses x side p q p' q' below above)
    (positive : 0 < s) (small : s < q + q') :
    |(p / q : ℚ) - x| ≤ |(r / s : ℚ) - x| ∨ |(p' / q' : ℚ) - x| ≤ |(r / s : ℚ) - x| := by
  obtain ⟨unit, determinant, lower, upper, below_nonneg, above_nonneg, positive_q, positive_q'⟩ := encloses
  -- `r / s` as a combination of the two fractions
  have combined : s = side * (r * q' - p' * s) * q + side * (p * s - r * q) * q' := by
    linear_combination -s * unit - side * s * determinant
  rcases le_or_gt (side * (p * s - r * q)) 0 with left | inner
  · refine .inl (abs_sub_le_of_beyond positive_q positive ?_)
    rw [lower]
    nlinarith
  rcases le_or_gt (side * (r * q' - p' * s)) 0 with right | inner'
  · refine .inr (abs_sub_le_of_beyond positive_q' positive ?_)
    rw [upper]
    nlinarith
  nlinarith

/-- The convergents express `x` by what is left of it, `n / d`. -/
structure Expresses (c : Convergents) (x : ℚ) (side n : ℤ) (d : ℕ) : Prop where
  num : c.p₁ * n + c.p₀ * d = x.num
  den : c.q₁ * n + c.q₀ * d = x.den
  unit : side * side = 1
  determinant : c.p₁ * c.q₀ - c.p₀ * c.q₁ = side

theorem expresses_start (x : ℚ) : Expresses .start x 1 x.num x.den := by
  constructor <;> simp [Convergents.start]

/-- One step of the division: what is left is turned over. -/
theorem Expresses.next (expresses : Expresses c x side n d) (positive : 0 < d) :
    Expresses (c.next (n.fdiv d)) x (-side) d (n.fmod d).toNat := by
  have rest : ((n.fmod d).toNat : ℤ) = n.fmod d :=
    Int.toNat_of_nonneg (Int.fmod_nonneg_of_pos n (by omega))
  have division := Int.mul_fdiv_add_fmod n d
  obtain ⟨num, den, unit, determinant⟩ := expresses
  constructor
  · rw [rest]
    simp only [Convergents.next]
    linear_combination num + c.p₁ * division
  · rw [rest]
    simp only [Convergents.next]
    linear_combination den + c.q₁ * division
  · linear_combination unit
  · simp only [Convergents.next]
    linear_combination -determinant

/-- Where nothing is left, the convergent is the number itself. -/
theorem Expresses.next_den (expresses : Expresses c x side n d) (positive : 0 < d) (exact : n.fmod d = 0) :
    (c.next (n.fdiv d)).q₁ = x.den := by
  obtain ⟨num, den, -, -⟩ := expresses.next positive
  simp only [exact, Int.toNat_zero, Nat.cast_zero, mul_zero, add_zero] at num den
  have divides : (d : ℤ) ∣ Int.gcd x.num x.den :=
    Int.dvd_coe_gcd ⟨_, by rw [← num, mul_comm]⟩ ⟨_, by rw [← den, mul_comm]⟩
  have lowest : Int.gcd x.num x.den = 1 := x.reduced
  have single : (d : ℤ) = 1 := by
    rw [lowest] at divides
    exact Int.eq_one_of_dvd_one (by omega) divides
  rw [← den, single, mul_one]

/-- The convergents once the whole part was read: what is left is above one, and the denominators grow. -/
structure Descends (c : Convergents) (x : ℚ) (side n : ℤ) (d : ℕ) : Prop extends Expresses c x side n d where
  positive : 0 < d
  proper : (d : ℤ) < n
  earlier : 0 ≤ c.q₀
  later : 0 < c.q₁

theorem toNat_fmod_pos (positive : 0 < d) (inexact : n.fmod d ≠ 0) : 0 < (n.fmod d).toNat := by
  have := Int.fmod_nonneg_of_pos n (by omega : (0 : ℤ) < d)
  omega

theorem toNat_fmod_lt (positive : 0 < d) : ((n.fmod d).toNat : ℤ) < d := by
  have := Int.fmod_lt_of_pos n (by omega : (0 : ℤ) < d)
  omega

theorem Descends.next (descends : Descends c x side n d) (inexact : n.fmod d ≠ 0) :
    Descends (c.next (n.fdiv d)) x (-side) d (n.fmod d).toNat where
  toExpresses := descends.toExpresses.next descends.positive
  positive := toNat_fmod_pos descends.positive inexact
  proper := toNat_fmod_lt descends.positive
  earlier := descends.later.le
  later := by
    have quotient : 1 ≤ n.fdiv d := by
      rw [Int.fdiv_eq_ediv_of_nonneg n (Int.natCast_nonneg d)]
      have := descends.positive
      exact Int.le_ediv_of_mul_le (by omega) (by linarith [descends.proper])
    have := descends.earlier
    have := descends.later
    simp only [Convergents.next]
    nlinarith

/-- Reading the whole part of a number that is not whole. -/
theorem descends_next_start (fractional : 1 < x.den) :
    Descends (Convergents.start.next (x.num.fdiv x.den)) x (-1) x.den (x.num.fmod x.den).toNat where
  toExpresses := (expresses_start x).next x.den_pos
  positive := by
    refine toNat_fmod_pos x.den_pos fun exact => ?_
    have := (expresses_start x).next_den x.den_pos exact
    simp only [Convergents.next, Convergents.start, mul_zero, add_zero] at this
    omega
  proper := toNat_fmod_lt x.den_pos
  earlier := by simp [Convergents.next, Convergents.start]
  later := by simp [Convergents.next, Convergents.start]

/-- The convergents found are the last ones within the bound: the next denominator lies above it. -/
structure AreLast (bound : ℤ) (c : Convergents) (x : ℚ) (side n : ℤ) (d : ℕ) : Prop
    extends Descends c x side n d where
  within : c.q₁ ≤ bound
  beyond : bound < (c.next (n.fdiv d)).q₁

theorem Descends.areLast (descends : Descends c x side n d) (within : c.q₁ ≤ bound) (beyond : bound < x.den) :
    ∃ side' n' d', AreLast bound (convergents bound c n d) x side' n' d' := by
  fun_induction convergents bound c n d generalizing side
  case case1 c n d a c' exceeds => exact ⟨side, n, d, descends, within, exceeds⟩
  case case2 c n d a c' allowed ended =>
    have whole := descends.next_den descends.positive (ended.resolve_left descends.positive.ne')
    exact absurd (whole ▸ beyond) allowed
  case case3 c n d a c' allowed ongoing ih =>
    exact ih (descends.next (not_or.mp ongoing).2) (not_lt.mp allowed)

theorem areLast_convergents (positive : 1 ≤ bound) (beyond : bound < x.den) :
    ∃ side n d, AreLast bound (convergents bound .start x.num x.den) x side n d := by
  have descends := descends_next_start (x := x) (by omega)
  have first : (Convergents.start.next (x.num.fdiv x.den)).q₁ = 1 := by simp [Convergents.next, Convergents.start]
  have inexact : ¬ (x.den = 0 ∨ x.num.fmod x.den = 0) := by
    have := descends.positive
    have := x.den_pos
    omega
  rw [convergents, if_neg (by omega), dif_neg inexact]
  exact descends.areLast (by omega) beyond

/-- As many of the last convergent are added to the one before it as the bound allows. -/
def mediant (bound : ℤ) (c : Convergents) : ℤ × ℤ :=
  let k := (bound - c.q₀).fdiv c.q₁
  (c.p₀ + k * c.p₁, c.q₀ + k * c.q₁)

theorem AreLast.mediant_bounds (last : AreLast bound c x side n d) :
    0 < (mediant bound c).2 ∧ (mediant bound c).2 ≤ bound ∧ bound < c.q₁ + (mediant bound c).2 := by
  have division := Int.mul_fdiv_add_fmod (bound - c.q₀) c.q₁
  have nonneg := Int.fmod_nonneg_of_pos (bound - c.q₀) last.later
  have small := Int.fmod_lt_of_pos (bound - c.q₀) last.later
  have within := last.within
  have same : (mediant bound c).2 = bound - (bound - c.q₀).fmod c.q₁ := by
    simp only [mediant]
    linear_combination division
  omega

/-- The number lies between the last convergent and the mediant. -/
theorem AreLast.encloses (last : AreLast bound c x side n d) :
    Encloses x side c.p₁ c.q₁ (mediant bound c).1 (mediant bound c).2 d
      (n - (bound - c.q₀).fdiv c.q₁ * d) := by
  have num := last.num
  have den := last.den
  have determinant := last.determinant
  refine ⟨last.unit, ?_, ?_, ?_, Int.natCast_nonneg d, ?_, last.later, last.mediant_bounds.1⟩
  · simp only [mediant]
    linear_combination determinant
  · linear_combination -c.q₁ * num + c.p₁ * den - d * determinant
  · simp only [mediant]
    linear_combination -(c.q₀ + (bound - c.q₀).fdiv c.q₁ * c.q₁) * num +
      (c.p₀ + (bound - c.q₀).fdiv c.q₁ * c.p₁) * den + (n - (bound - c.q₀).fdiv c.q₁ * d) * determinant
  · have fits : (bound - c.q₀).fdiv c.q₁ * c.q₁ ≤ bound - c.q₀ := by
      have := Int.mul_fdiv_add_fmod (bound - c.q₀) c.q₁
      have := Int.fmod_nonneg_of_pos (bound - c.q₀) last.later
      linarith
    have beyond : bound < c.q₀ + n.fdiv d * c.q₁ := last.beyond
    have fewer : (bound - c.q₀).fdiv c.q₁ < n.fdiv d := by
      have := last.later
      by_contra more
      nlinarith
    have division := Int.mul_fdiv_add_fmod n d
    have nonneg := Int.fmod_nonneg_of_pos n (by exact_mod_cast last.positive : (0 : ℤ) < d)
    nlinarith

theorem den_ratio_le (p : ℤ) {q : ℤ} (positive : 0 < q) : ((ratio p q).den : ℤ) ≤ q :=
  Int.le_of_dvd positive (Rat.den_dvd p q)

/-- The nearest of the fractions within the bound is found. -/
theorem approximate_isNearest (positive : 1 ≤ bound) :
    ∃ r, approximate x bound = .ok r ∧ IsNearest bound x r ∧ ((x.den : ℤ) ≤ bound → r = x) := by
  rw [approximate]
  split
  next short => exact ⟨x, rfl, ⟨short, fun a b _ _ => by simp⟩, fun _ => rfl⟩
  next long =>
  obtain ⟨side, n, d, last⟩ := areLast_convergents positive (not_le.mp long)
  simp only
  generalize convergents bound .start x.num x.den = c at last
  rw [if_neg last.later.ne']
  have bounds := last.mediant_bounds
  refine ⟨_, rfl, ⟨?_, fun a b one within => ?_⟩, fun short => absurd short long⟩
  · split
    · exact (den_ratio_le _ last.later).trans last.within
    · exact (den_ratio_le _ bounds.1).trans bounds.2.1
  · have either := last.encloses.nearest (r := a) (s := b) (by omega) (by omega)
    simp only [abs_eq_abs, ratio, Rat.divInt_eq_div]
    simp only [mediant] at either
    push_cast at either ⊢
    split
    next closer => exact either.elim id closer.trans
    next closer => exact either.elim (not_le.mp closer).le.trans id

/-- A finite binary64 number under an integral bound: the approximation is found, no fraction within the bound
is nearer, and a number that is within the bound itself comes back as it is. -/
theorem ofFloat_isNearest {number : Float} {limit : Datum} (finite : Binary64.toRat? number = some x)
    (integral : limit.integer = .ok bound) (positive : 1 ≤ bound) :
    ∃ r, ofFloat number limit = .ok r ∧ IsNearest bound x r ∧ ((x.den : ℤ) ≤ bound → r = x) := by
  have read : Binary64.toRat number = .ok x := by rw [Binary64.toRat, finite]
  have same : ofFloat number limit = approximate x bound := by
    cases limit with
    | real => cases integral
    | _ =>
      simp only [ofFloat, read, integral]
      rfl
  rw [same]
  exact approximate_isNearest positive

/-- The binary64 number nearest to pi. -/
def circleConstant : Float := Float.ofBits 0x400921FB54442D18

theorem circleConstant_isNearest :
    ∃ r, ofFloat circleConstant (.whole 113) = .ok r ∧
      IsNearest 113 (884279719003555 / 281474976710656) r ∧
      (((884279719003555 / 281474976710656 : ℚ).den : ℤ) ≤ 113 → r = 884279719003555 / 281474976710656) :=
  ofFloat_isNearest (by decide +kernel) rfl (by decide)

example : (ofFloat circleConstant (.whole 113)).toOption = some (355 / 113) := by decide +kernel

end ExactAlgebra.Rational
