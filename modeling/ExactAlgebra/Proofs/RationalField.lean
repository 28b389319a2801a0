import ExactAlgebra.Rational.Pair
import ExactAlgebra.Proofs.Computation
import ExactAlgebra.Proofs.Radical
import Mathlib

/-! Pairs of integers compute in the field of rational numbers. Every operation leaves its result in
lowest terms over a positive denominator, those that do not cancel included, so the parts of equal
numbers are equal and nothing but a zero divisor is refused. -/
namespace ExactAlgebra.Rational.Pair

/-- In lowest terms over a positive denominator. -/
structure Reduced (a : Pair) : Prop where
  positive : 0 < a.den
  coprime : a.num.natAbs.Coprime a.den.natAbs

/-- Made by the constructor out of integers and numbers made before. -/
inductive Built : Pair → Prop
  | wholes {n d : Int} {r : Pair} : build (.whole n) (.whole d) = .ok r → Built r
  | wholeOver {n : Int} {b r : Pair} : Built b → build (.whole n) (.number b) = .ok r → Built r
  | overWhole {a r : Pair} {d : Int} : Built a → build (.number a) (.whole d) = .ok r → Built r
  | numbers {a b r : Pair} : Built a → Built b → build (.number a) (.number b) = .ok r → Built r

def Gives (x : Except Fault Pair) (v : ℚ) : Prop := ∃ r, x = .ok r ∧ r.Reduced ∧ r.value = v

def Refused (x : Except Fault Pair) : Prop := ∃ fault, x = .error fault ∧ fault.kind = .divisionByZero

variable {a b r : Pair}

theorem reduced_of (x : ℚ) : (of x).Reduced := by
  constructor
  · exact Int.natCast_pos.mpr x.den_pos
  · exact x.reduced

@[simp] theorem value_of (x : ℚ) : (of x).value = x := by
  simp [value, of, Rat.num_div_den]

/-- Numbers in lowest terms are told apart by their parts. -/
theorem Reduced.eq_of (reduced : a.Reduced) : a = of a.value := by
  have den : (a.value.den : ℤ) = a.den := Rat.den_div_eq_of_coprime reduced.positive reduced.coprime
  have num : a.value.num = a.num := Rat.num_div_eq_of_coprime reduced.positive reduced.coprime
  rw [of, num, den]

theorem Reduced.den_ne_zero (reduced : a.Reduced) : (a.den : ℚ) ≠ 0 :=
  Int.cast_ne_zero.mpr reduced.positive.ne'

theorem Reduced.num_eq_zero (reduced : a.Reduced) : a.num = 0 ↔ a.value = 0 := by
  simp [value, reduced.positive.ne']

theorem fdiv_gcd {n d : Int} : n.fdiv (Int.gcd n d) = n / (Int.gcd n d : ℤ) ∧
    d.fdiv (Int.gcd n d) = d / (Int.gcd n d : ℤ) :=
  ⟨Int.fdiv_eq_ediv_of_nonneg n (Int.natCast_nonneg _),
    Int.fdiv_eq_ediv_of_nonneg d (Int.natCast_nonneg _)⟩

theorem gives_lowest {n d : Int} (positive : 0 < d) :
    Gives (.ok (if 1 < (Int.gcd n d : ℤ) then
      ⟨n.fdiv (Int.gcd n d), d.fdiv (Int.gcd n d)⟩ else ⟨n, d⟩)) (n / d) := by
  have common : 0 < Int.gcd n d := Int.gcd_pos_of_ne_zero_right n positive.ne'
  split
  next several =>
    rw [fdiv_gcd.1, fdiv_gcd.2]
    have above : ((Int.gcd n d : ℤ)) ∣ n := Int.gcd_dvd_left n d
    have below : ((Int.gcd n d : ℤ)) ∣ d := Int.gcd_dvd_right n d
    have nonzero : ((Int.gcd n d : ℤ) : ℚ) ≠ 0 := by exact_mod_cast common.ne'
    refine ⟨_, rfl, ⟨?_, ?_⟩, ?_⟩
    · exact Int.ediv_pos_of_pos_of_dvd positive (Int.natCast_nonneg _) below
    · exact Int.gcd_div_gcd_div_gcd common
    · rw [value]
      push_cast [Int.cast_div above nonzero, Int.cast_div below nonzero]
      exact div_div_div_cancel_right₀ nonzero _ _
  next single =>
    refine ⟨_, rfl, ⟨positive, ?_⟩, rfl⟩
    have one : Int.gcd n d = 1 := by omega
    exact one

/-- A quotient is refused over zero, and in lowest terms otherwise. -/
theorem make_gives {n d : Int} (nonzero : d ≠ 0) : Gives (make n d) (n / d) := by
  unfold make
  rw [if_neg nonzero]
  by_cases negative : d < 0
  · have turned : ((-n : ℤ) : ℚ) / ((-d : ℤ) : ℚ) = n / d := by
      push_cast
      exact neg_div_neg_eq _ _
    rw [← turned]
    simp only [negative, if_true]
    exact gives_lowest (by omega)
  · simp only [negative, if_false]
    exact gives_lowest (by omega)

theorem Gives.reduced {x : Except Fault Pair} {v : ℚ} (gives : Gives x v) (returned : x = .ok r) :
    r.Reduced ∧ r.value = v := by
  obtain ⟨r', same, reduced, value⟩ := gives
  obtain rfl := Except.ok.inj (returned.symm.trans same)
  exact ⟨reduced, value⟩

theorem reduced_make {n d : Int} (returned : make n d = .ok r) : r.Reduced := by
  by_cases zero : d = 0
  · rw [make, if_pos zero] at returned
    cases returned
  · exact ((make_gives zero).reduced returned).1

/-- Whatever the constructor is given, what it makes is in lowest terms. -/
theorem reduced_build {n d : Part} (returned : build n d = .ok r) : r.Reduced := by
  cases n with
  | whole n =>
    cases d with
    | whole d => exact reduced_make returned
    | number b => exact reduced_make returned
  | number a =>
    rw [build] at returned
    split at returned
    · exact reduced_make returned
    · obtain ⟨b, _, returned⟩ := Outcome.bind_ok returned
      exact reduced_make returned

theorem Built.reduced (built : Built a) : a.Reduced := by
  cases built with
  | wholes returned => exact reduced_build returned
  | wholeOver _ returned => exact reduced_build returned
  | overWhole _ returned => exact reduced_build returned
  | numbers _ _ returned => exact reduced_build returned

theorem fdiv_eq_floor (n : Int) {d : Int} (nonzero : d ≠ 0) : n.fdiv d = ⌊(n : ℚ) / d⌋ := by
  rcases lt_or_gt_of_ne nonzero with negative | positive
  · have turned : (n : ℚ) / d = ((-n : ℤ) : ℚ) / ((-d).toNat : ℕ) := by
      rw [← neg_div_neg_eq, ← Int.cast_natCast, Int.toNat_of_nonneg (by omega)]
      push_cast
      rfl
    rw [turned, Rat.floor_intCast_div_natCast, Int.toNat_of_nonneg (by omega),
      ← Int.fdiv_eq_ediv_of_nonneg _ (by omega), Int.neg_fdiv_neg]
  · have same : (n : ℚ) / d = (n : ℚ) / (d.toNat : ℕ) := by
      rw [← Int.cast_natCast, Int.toNat_of_nonneg positive.le]
    rw [same, Rat.floor_intCast_div_natCast, Int.toNat_of_nonneg positive.le,
      Int.fdiv_eq_ediv_of_nonneg _ positive.le]

section
variable (reducedA : a.Reduced) (reducedB : b.Reduced)
include reducedA reducedB

theorem gives_add : Gives (add a b) (a.value + b.value) := by
  have below : a.den * b.den ≠ 0 := mul_ne_zero reducedA.positive.ne' reducedB.positive.ne'
  have sum : a.value + b.value = ((a.num * b.den + b.num * a.den : ℤ) : ℚ) / (a.den * b.den : ℤ) := by
    rw [value, value, div_add_div _ _ reducedA.den_ne_zero reducedB.den_ne_zero]
    push_cast
    ring
  rw [sum]
  exact make_gives below

theorem gives_sub : Gives (sub a b) (a.value - b.value) := by
  have below : a.den * b.den ≠ 0 := mul_ne_zero reducedA.positive.ne' reducedB.positive.ne'
  have difference :
      a.value - b.value = ((a.num * b.den - b.num * a.den : ℤ) : ℚ) / (a.den * b.den : ℤ) := by
    rw [value, value, div_sub_div _ _ reducedA.den_ne_zero reducedB.den_ne_zero]
    push_cast
    ring
  rw [difference]
  exact make_gives below

theorem gives_mul : Gives (mul a b) (a.value * b.value) := by
  have below : a.den * b.den ≠ 0 := mul_ne_zero reducedA.positive.ne' reducedB.positive.ne'
  have product : a.value * b.value = ((a.num * b.num : ℤ) : ℚ) / (a.den * b.den : ℤ) := by
    rw [value, value, div_mul_div_comm]
    push_cast
    rfl
  rw [product]
  exact make_gives below

theorem gives_div (nonzero : b.value ≠ 0) : Gives (div a b) (a.value / b.value) := by
  have top : b.num ≠ 0 := fun zero => nonzero (reducedB.num_eq_zero.mp zero)
  have below : a.den * b.num ≠ 0 := mul_ne_zero reducedA.positive.ne' top
  have quotient : a.value / b.value = ((a.num * b.den : ℤ) : ℚ) / (a.den * b.num : ℤ) := by
    rw [value, value, div_div_div_eq]
    push_cast
    rfl
  rw [div, if_neg top, quotient]
  exact make_gives below

/-- The quotient that a remainder is taken from is the integer below the exact one. -/
theorem floor_value_div (nonzero : b.value ≠ 0) :
    (a.num * b.den).fdiv (a.den * b.num) = ⌊a.value / b.value⌋ := by
  have top : b.num ≠ 0 := fun zero => nonzero (reducedB.num_eq_zero.mp zero)
  have below : a.den * b.num ≠ 0 := mul_ne_zero reducedA.positive.ne' top
  have quotient : a.value / b.value = ((a.num * b.den : ℤ) : ℚ) / (a.den * b.num : ℤ) := by
    rw [value, value, div_div_div_eq]
    push_cast
    rfl
  rw [quotient, fdiv_eq_floor _ below]

theorem gives_mod (nonzero : b.value ≠ 0) :
    Gives (mod a b) (a.value - b.value * ⌊a.value / b.value⌋) := by
  have top : b.num ≠ 0 := fun zero => nonzero (reducedB.num_eq_zero.mp zero)
  obtain ⟨whole, made, reducedWhole, valueWhole⟩ :=
    @make_gives ((a.num * b.den).fdiv (a.den * b.num)) 1 one_ne_zero
  obtain ⟨multiple, multiplied, reducedMultiple, valueMultiple⟩ := gives_mul reducedB reducedWhole
  have difference := gives_sub reducedA reducedMultiple
  rw [valueMultiple, valueWhole, floor_value_div reducedA reducedB nonzero, Int.cast_one,
    div_one] at difference
  rw [mod, if_neg top, made]
  simp only [bind, Except.bind, multiplied]
  exact difference

theorem same_iff : same a b = true ↔ a.value = b.value := by
  simp only [same, Bool.and_eq_true, beq_iff_eq]
  constructor
  · rintro ⟨num, den⟩
    rw [value, value, num, den]
  · intro equal
    rw [reducedA.eq_of, reducedB.eq_of, equal]
    exact ⟨rfl, rfl⟩

/-- The numerators over the common denominator are ordered as the numbers are. -/
theorem compare_eq : compare a b = SignType.sign (a.value - b.value) := by
  have below : (0 : ℚ) < a.den * b.den := by exact_mod_cast mul_pos reducedA.positive reducedB.positive
  have across : ((a.num * b.den - b.num * a.den : ℤ) : ℚ) = (a.value - b.value) * (a.den * b.den) := by
    rw [value, value, div_sub_div _ _ reducedA.den_ne_zero reducedB.den_ne_zero,
      div_mul_cancel₀ _ below.ne']
    push_cast
    ring
  rw [compare, Int.sign_eq_sign]
  congr 1
  rcases lt_trichotomy a.value b.value with less | equal | more
  · have negative : ((a.num * b.den - b.num * a.den : ℤ) : ℚ) < 0 := by
      rw [across]
      exact mul_neg_of_neg_of_pos (sub_neg.mpr less) below
    rw [sign_neg (Int.cast_lt_zero.mp negative), sign_neg (sub_neg.mpr less)]
  · have zero : ((a.num * b.den - b.num * a.den : ℤ) : ℚ) = 0 := by
      rw [across, equal, sub_self, zero_mul]
    rw [Int.cast_eq_zero.mp zero, equal, sub_self, sign_zero, sign_zero]
  · have positive : (0 : ℚ) < ((a.num * b.den - b.num * a.den : ℤ) : ℚ) := by
      rw [across]
      exact mul_pos (sub_pos.mpr more) below
    rw [sign_pos (Int.cast_pos.mp positive), sign_pos (sub_pos.mpr more)]

end

theorem Reduced.neg (reduced : a.Reduced) : a.neg.Reduced ∧ a.neg.value = -a.value := by
  constructor
  · exact ⟨reduced.positive, by simpa [Pair.neg] using reduced.coprime⟩
  · rw [value, value, Pair.neg, Int.cast_neg, neg_div]

theorem Reduced.abs (reduced : a.Reduced) : a.abs.Reduced ∧ a.abs.value = |a.value| := by
  have below : (0 : ℚ) < a.den := Int.cast_pos.mpr reduced.positive
  constructor
  · refine ⟨reduced.positive, ?_⟩
    rw [Pair.abs, Int.natAbs_natCast]
    exact reduced.coprime
  · rw [value, value, Pair.abs, abs_div, abs_of_pos below]
    simp

theorem Reduced.inv (reduced : a.Reduced) (nonzero : a.value ≠ 0) : Gives (inv a) a.value⁻¹ := by
  have top : a.num ≠ 0 := fun zero => nonzero (reduced.num_eq_zero.mp zero)
  rw [Pair.inv, if_neg top, value, inv_div]
  refine ⟨_, rfl, ?_⟩
  split
  next negative =>
    refine ⟨⟨by simpa using negative, by simpa using reduced.coprime.symm⟩, ?_⟩
    rw [value]
    push_cast
    exact neg_div_neg_eq _ _
  next positive => exact ⟨⟨by simp only; omega, reduced.coprime.symm⟩, rfl⟩

/-- Repeated squaring multiplies the result by a power of the base, in both parts. -/
theorem raise_eq (result base : Pair) (n : Nat) :
    raise result base n = ⟨result.num * base.num ^ n, result.den * base.den ^ n⟩ := by
  fun_induction raise result base n with
  | case1 result base => simp
  | case2 result base n positive ih =>
    have halves : n = n % 2 + 2 * (n / 2) := (Nat.mod_add_div n 2).symm
    simp only [dite_eq_ite] at ih
    rw [ih]
    split
    next odd =>
      rw [odd] at halves
      conv_rhs => rw [halves]
      simp only [times, pow_add, pow_mul, pow_one, sq, mul_assoc]
    next even =>
      have none : n % 2 = 0 := by omega
      rw [none, zero_add] at halves
      conv_rhs => rw [halves]
      simp only [times, pow_mul, sq]

theorem Reduced.raise (reduced : a.Reduced) (n : Nat) :
    (raise one a n).Reduced ∧ (raise one a n).value = a.value ^ n := by
  rw [raise_eq, one, one_mul, one_mul]
  constructor
  · refine ⟨pow_pos reduced.positive n, ?_⟩
    rw [Int.natAbs_pow, Int.natAbs_pow]
    exact reduced.coprime.pow n n
  · rw [value, value, div_pow]
    push_cast
    rfl

theorem gives_pow (reduced : a.Reduced) {n : ℤ} (allowed : 0 ≤ n ∨ a.value ≠ 0) :
    Gives (pow a n) (a.value ^ n) := by
  unfold Pair.pow
  split
  next negative =>
    have nonzero := allowed.resolve_left (by omega)
    obtain ⟨inverse, inverted, reducedInverse, valueInverse⟩ := reduced.inv nonzero
    obtain ⟨reducedPower, valuePower⟩ := reducedInverse.raise n.natAbs
    refine ⟨_, by rw [inverted]; rfl, reducedPower, ?_⟩
    have size : n = -(n.natAbs : ℤ) := by omega
    rw [valuePower, valueInverse]
    conv_rhs => rw [size]
    rw [zpow_neg, zpow_natCast, inv_pow]
  next nonnegative =>
    obtain ⟨reducedPower, valuePower⟩ := reduced.raise n.natAbs
    refine ⟨_, rfl, reducedPower, ?_⟩
    have size : n = (n.natAbs : ℤ) := by omega
    conv_rhs => rw [size]
    rw [valuePower, zpow_natCast]

theorem refused_div (reducedB : b.Reduced) (zero : b.value = 0) : Refused (div a b) := by
  rw [div, if_pos (reducedB.num_eq_zero.mpr zero)]
  exact ⟨_, rfl, rfl⟩

theorem refused_mod (reducedB : b.Reduced) (zero : b.value = 0) : Refused (mod a b) := by
  rw [mod, if_pos (reducedB.num_eq_zero.mpr zero)]
  exact ⟨_, rfl, rfl⟩

theorem refused_inv (reduced : a.Reduced) (zero : a.value = 0) : Refused (inv a) := by
  rw [inv, if_pos (reduced.num_eq_zero.mpr zero)]
  exact ⟨_, rfl, rfl⟩

theorem refused_pow (reduced : a.Reduced) (zero : a.value = 0) {n : ℤ} (negative : n < 0) :
    Refused (pow a n) := by
  obtain ⟨fault, refused, kind⟩ := refused_inv reduced zero
  rw [pow, if_pos negative, refused]
  exact ⟨fault, rfl, kind⟩

/-- A remainder lies between zero and the divisor. -/
theorem sub_mul_floor_bounds (x : ℚ) {y : ℚ} :
    (0 < y → 0 ≤ x - y * ⌊x / y⌋ ∧ x - y * ⌊x / y⌋ < y) ∧
      (y < 0 → y < x - y * ⌊x / y⌋ ∧ x - y * ⌊x / y⌋ ≤ 0) := by
  have lower := Int.floor_le (x / y)
  have upper := Int.lt_floor_add_one (x / y)
  constructor
  · intro positive
    rw [le_div_iff₀ positive] at lower
    rw [div_lt_iff₀ positive] at upper
    constructor <;> linarith
  · intro negative
    rw [le_div_iff_of_neg negative] at lower
    rw [div_lt_iff_of_neg negative] at upper
    constructor <;> linarith

theorem Gives.eq_of {x : Except Fault Pair} {v : ℚ} (gives : Gives x v) : x = .ok (of v) := by
  obtain ⟨r, returned, reduced, rfl⟩ := gives
  rw [returned, ← reduced.eq_of]

/-- The parts of exact numbers compute as the exact numbers do, refusals included. -/
theorem computes_as_rat (x y : ℚ) (n : ℤ) :
    add (of x) (of y) = .ok (of (x + y)) ∧
      sub (of x) (of y) = .ok (of (x - y)) ∧
      mul (of x) (of y) = .ok (of (x * y)) ∧
      div (of x) (of y) = (divide x y).map of ∧
      mod (of x) (of y) = (modulo x y).map of ∧
      neg (of x) = of (-x) ∧
      inv (of x) = (invert x).map of ∧
      abs (of x) = of (Rational.abs x) ∧
      pow (of x) n = (power x n).map of := by
  have reducedX := reduced_of x
  have reducedY := reduced_of y
  refine ⟨?add, ?sub, ?mul, ?div, ?mod, ?neg, ?inv, ?abs, ?pow⟩
  case add => simpa using (gives_add reducedX reducedY).eq_of
  case sub => simpa using (gives_sub reducedX reducedY).eq_of
  case mul => simpa using (gives_mul reducedX reducedY).eq_of
  case div =>
    rw [divide]
    split
    next zero => simp [div, of, zero, Except.map]
    next nonzero => simpa [Except.map] using (gives_div reducedX reducedY (by simpa using nonzero)).eq_of
  case mod =>
    rw [modulo]
    split
    next zero => simp [mod, of, zero, Except.map]
    next nonzero =>
      have remainder := (gives_mod reducedX reducedY (by simpa using nonzero)).eq_of
      rw [value_of, value_of] at remainder
      exact remainder
  case neg => simp [neg, of]
  case inv =>
    rw [invert]
    split
    next zero => simp [inv, of, zero, Except.map]
    next nonzero => simpa [Except.map] using (reducedX.inv (by simpa using nonzero)).eq_of
  case abs =>
    obtain ⟨reduced, value⟩ := reducedX.abs
    rw [reduced.eq_of, value, value_of, abs_eq_abs]
  case pow =>
    rw [power_eq]
    split
    next refused =>
      obtain ⟨negative, rfl⟩ := refused
      rw [pow, if_pos negative]
      rfl
    next allowed =>
      have raised : 0 ≤ n ∨ (of x).value ≠ 0 := by
        rw [value_of]
        rcases lt_or_ge n 0 with negative | nonnegative
        · exact .inr fun zero => allowed ⟨negative, zero⟩
        · exact .inl nonnegative
      simpa [Except.map] using (gives_pow reducedX raised).eq_of

/-- Numbers made by the constructor compute as the rational numbers they stand for, every result in
lowest terms; a division by zero is refused, and nothing else is. -/
theorem computes_in_field (builtA : Built a) (builtB : Built b) :
    Gives (add a b) (a.value + b.value) ∧
      Gives (sub a b) (a.value - b.value) ∧
      Gives (mul a b) (a.value * b.value) ∧
      (b.value ≠ 0 → Gives (div a b) (a.value / b.value)) ∧
      (b.value = 0 → Refused (div a b)) ∧
      (b.value ≠ 0 → ∃ v, Gives (mod a b) v ∧ v = a.value - b.value * ⌊a.value / b.value⌋ ∧
        (0 < b.value → 0 ≤ v ∧ v < b.value) ∧ (b.value < 0 → b.value < v ∧ v ≤ 0)) ∧
      (b.value = 0 → Refused (mod a b)) ∧
      (a.neg.Reduced ∧ a.neg.value = -a.value) ∧
      (a.value ≠ 0 → Gives (inv a) a.value⁻¹) ∧
      (a.value = 0 → Refused (inv a)) ∧
      (a.abs.Reduced ∧ a.abs.value = |a.value|) ∧
      (∀ n : ℤ, (0 ≤ n ∨ a.value ≠ 0 → Gives (pow a n) (a.value ^ n)) ∧
        (n < 0 ∧ a.value = 0 → Refused (pow a n))) ∧
      (same a b = true ↔ a.value = b.value) ∧
      (compare a b < 0 ↔ a.value < b.value) ∧
      (compare a b ≤ 0 ↔ a.value ≤ b.value) ∧
      (0 < compare a b ↔ b.value < a.value) ∧
      (0 ≤ compare a b ↔ b.value ≤ a.value) := by
  have reducedA := builtA.reduced
  have reducedB := builtB.reduced
  have order := compare_eq reducedA reducedB
  refine ⟨gives_add reducedA reducedB, gives_sub reducedA reducedB, gives_mul reducedA reducedB,
    gives_div reducedA reducedB, refused_div reducedB, ?mod, refused_mod reducedB, reducedA.neg,
    reducedA.inv, refused_inv reducedA, reducedA.abs, ?pow, same_iff reducedA reducedB, ?less, ?most,
    ?more, ?least⟩
  case mod =>
    intro nonzero
    obtain ⟨above, below⟩ := @sub_mul_floor_bounds a.value b.value
    exact ⟨_, gives_mod reducedA reducedB nonzero, rfl, above, below⟩
  case pow =>
    intro n
    constructor
    · intro allowed
      exact gives_pow reducedA allowed
    · rintro ⟨negative, zero⟩
      exact refused_pow reducedA zero negative
  all_goals
    rw [order]
    rcases lt_trichotomy a.value b.value with less | same | more
    · simp [sign_neg (sub_neg.mpr less), less, less.le, less.not_gt, less.not_ge]
    · simp [same]
    · simp [sign_pos (sub_pos.mpr more), more, more.le, more.not_gt, more.not_ge]

/-- Six over minus four and two over six. -/
theorem halves_and_thirds_compute :
    Built ⟨-3, 2⟩ ∧ Built ⟨1, 3⟩ ∧ Gives (mod ⟨-3, 2⟩ ⟨1, 3⟩) (1 / 6) := by
  have builtA : Built ⟨-3, 2⟩ := .wholes (n := 6) (d := -4) rfl
  have builtB : Built ⟨1, 3⟩ := .wholes (n := 2) (d := 6) rfl
  obtain ⟨-, -, -, -, -, remainder, -⟩ := computes_in_field builtA builtB
  obtain ⟨v, gives, value, -⟩ := remainder (by norm_num [Pair.value])
  have floor : ⌊(-9 / 2 : ℚ)⌋ = -5 := by norm_num [Int.floor_eq_iff]
  refine ⟨builtA, builtB, ?_⟩
  norm_num [Pair.value, floor] at value
  rwa [value] at gives

end ExactAlgebra.Rational.Pair
