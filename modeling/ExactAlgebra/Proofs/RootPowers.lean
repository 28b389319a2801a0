import ExactAlgebra.Proofs.MultiplicationValue
import Mathlib

/-! Exact roots taken back. A power of a rational number with an exponent that is not whole is kept as a
rational number times roots of integers and of minus one; raised to the denominator of the exponent, it is
the rational power again. -/
namespace ExactAlgebra.Expr

/-- The outcome is the number, or it is refused because some number has too many digits. -/
def GivesNumber (x : ℚ) (outcome : Except Fault Expr) : Prop :=
  outcome = .ok (number x) ∨ outcome = .error (.powerTooLarge maxIntegerBits)

theorem GivesNumber.mulWithin {x y : ℚ} {a b : Except Fault Expr} (givesA : GivesNumber x a)
    (givesB : GivesNumber y b) (nonzeroX : x ≠ 0) (nonzeroY : y ≠ 0) (n : ℕ) :
    GivesNumber (x * y) (do mulWithin (n + 1) (← a) (← b)) := by
  rcases givesA with rfl | rfl
  · rcases givesB with rfl | rfl
    · refine .inl ?_
      have some : (number y).isZero = false := by simpa [isZero] using nonzeroY
      change Expr.mulWithin (n + 1) (number x) (number y) = _
      rw [mulWithin_number n nonzeroX some, scale, if_neg nonzeroX, mul_comm]
      rfl
    · exact .inr rfl
  · exact .inr rfl

theorem givesNumber_powNumber {c : ℚ} (nonzero : c ≠ 0) {p : ℚ} (whole : p.den = 1) :
    GivesNumber (c ^ p.num) (powNumber c p) := by
  rw [powNumber_whole whole nonzero]
  split
  · exact .inr rfl
  · exact .inl rfl

/-- A symbol whose power, raised to the degree, is a number: an integer under a root, or the imaginary
unit. -/
def RaisesTo (degree : ℕ) (name : String) (q y : ℚ) : Prop :=
  y ≠ 0 ∧
    (isIntegerText name = true ∧ GivesNumber y (powNumber (integerOf name) (q * degree)) ∨
      isIntegerText name = false ∧ name = "i" ∧ Rational.isInteger (q * degree) = true ∧
        powerOfI (q * degree).num = number y)

theorem RaisesTo.givesNumber {degree : ℕ} {name : String} {q y c : ℚ} (raises : RaisesTo degree name q y)
    (several : 2 ≤ degree) (nonzero : c ≠ 0) (n : ℕ) :
    GivesNumber (c ^ degree * y) (powRatWithin (n + 2) (symbol c name q) degree) := by
  have outer := givesNumber_powNumber nonzero (Rat.den_natCast degree)
  rw [Rat.num_natCast, zpow_natCast] at outer
  have positive : (degree : ℚ) ≠ 0 := by exact_mod_cast (by omega : degree ≠ 0)
  have other : (degree : ℚ) ≠ 1 := by exact_mod_cast (by omega : degree ≠ 1)
  unfold powRatWithin
  rw [if_neg positive, if_neg other]
  obtain ⟨present, ⟨digits, raised⟩ | ⟨noDigits, rfl, whole, raised⟩⟩ := raises
  · simpa [digits] using outer.mulWithin raised (pow_ne_zero _ nonzero) present n
  · have taken : GivesNumber y (.ok (number y)) := .inl rfl
    have product : GivesNumber (c ^ degree * y) (do
        let outer ← powNumber c degree
        Expr.mulWithin (n + 1) outer (number y)) :=
      outer.mulWithin taken (pow_ne_zero _ nonzero) present n
    simpa [noDigits, whole, raised] using product

/-- A product of two such symbols. -/
theorem RaisesTo.givesNumber_product {degree : ℕ} {name other : String} {q p y z c : ℚ}
    (first : RaisesTo degree name q y) (second : RaisesTo degree other p z) (several : 2 ≤ degree)
    (nonzero : c ≠ 0) (n : ℕ) :
    GivesNumber (c ^ degree * y * z)
      (powRatWithin (n + 3) (product c [symbol 1 name q, symbol 1 other p]) degree) := by
  have outer := givesNumber_powNumber nonzero (Rat.den_natCast degree)
  rw [Rat.num_natCast, zpow_natCast] at outer
  have positive : (degree : ℚ) ≠ 0 := by exact_mod_cast (by omega : degree ≠ 0)
  have notOne : (degree : ℚ) ≠ 1 := by exact_mod_cast (by omega : degree ≠ 1)
  have one {name : String} {q y : ℚ} (raises : RaisesTo degree name q y) :
      GivesNumber y (powRatWithin (n + 2) (symbol 1 name q) degree) := by
    simpa using raises.givesNumber several one_ne_zero n
  have power : c ^ degree ≠ 0 := pow_ne_zero _ nonzero
  have both := (outer.mulWithin (one first) power first.1 (n + 1)).mulWithin (one second)
    (mul_ne_zero power first.1) second.1 (n + 1)
  unfold powRatWithin
  rw [if_neg positive, if_neg notOne]
  simpa [List.foldlM, bind_assoc] using both

/-- An integer under a root. -/
theorem raisesTo_root {n degree : ℕ} (present : n ≠ 0) (several : 2 ≤ degree) :
    RaisesTo degree (toString n) (mkRat 1 degree) n := by
  have nonzero : (n : ℚ) ≠ 0 := by exact_mod_cast present
  have once : mkRat 1 degree * (degree : ℚ) = 1 := by
    rw [Rat.mkRat_eq_div, Int.cast_one, one_div_mul_cancel]
    exact_mod_cast (by omega : degree ≠ 0)
  refine ⟨nonzero, .inl ⟨Text.isIntegerText_toString n, ?_⟩⟩
  rw [once, Text.integerOf_toString]
  simpa using givesNumber_powNumber nonzero (show (1 : ℚ).den = 1 from rfl)

/-- The imaginary unit. -/
theorem raisesTo_i : RaisesTo 2 "i" 1 (-1) := by
  refine ⟨by norm_num, .inr ⟨by decide, rfl, by decide +kernel, ?_⟩⟩
  have power : ((1 : ℚ) * (2 : ℕ)).num = 2 := by simp
  rw [power]
  rfl

/-- Minus one to a power whose multiple by the degree is odd. -/
theorem raisesTo_minus_one {degree : ℕ} {p : ℚ} {m : ℤ} (power : p * degree = m) (odd : m % 2 = 1) :
    RaisesTo degree "-1" p (-1) := by
  refine ⟨by norm_num, .inl ⟨by decide, ?_⟩⟩
  have gives := givesNumber_powNumber (c := -1) (by norm_num) (Rat.den_intCast m)
  rw [Rat.num_intCast, Odd.neg_one_zpow (Int.odd_iff.mpr odd)] at gives
  rw [power]
  exact gives

/-- There is work enough for a power of a power. -/
theorem pow_number_eq (w : Expr) (p : ℚ) :
    ∃ n, pow w (Expr.number p) = powRatWithin (n + 3) w p := by
  obtain ⟨n, enough⟩ : ∃ n, workLimit w (Expr.number p) = n + 4 := by
    refine Nat.exists_eq_add_of_le' ?_
    unfold workLimit
    nlinarith [Nat.zero_le (w.size + (Expr.number p).size)]
  exact ⟨n, by rw [pow, enough, powWithin]⟩

/-- A root of a positive number, with a sign, raised to its degree. -/
theorem IsRootOf.givesNumber {x sign : ℚ} {degree : ℕ} {w : Expr} (root : IsRootOf x degree w)
    (several : 2 ≤ degree) (unit : sign ≠ 0) :
    GivesNumber (sign ^ degree * x) (pow (w.withCoeff (sign * w.coeff)) (Expr.number degree)) := by
  obtain ⟨n, power⟩ := pow_number_eq (w.withCoeff (sign * w.coeff)) degree
  rw [power]
  cases root with
  | @number c positive value =>
    have nonzero : sign * c ≠ 0 := mul_ne_zero unit positive.ne'
    have gives := givesNumber_powNumber nonzero (Rat.den_natCast degree)
    rw [Rat.num_natCast, zpow_natCast, mul_pow, value] at gives
    simpa [withCoeff, coeff, powRatWithin, unit, positive.ne', show degree ≠ 0 by omega,
      show degree ≠ 1 by omega] using gives
  | @root c k positive large value =>
    have gives := (raisesTo_root (n := k) (by omega) several).givesNumber several
      (mul_ne_zero unit positive.ne') (n + 1)
    rwa [mul_pow, mul_assoc, value] at gives

/-- Such a root times a further symbol, raised to the degree. -/
theorem IsRootOf.givesNumber_timesSymbol {x y sign p : ℚ} {degree : ℕ} {name : String} {w : Expr}
    (root : IsRootOf x degree w) (several : 2 ≤ degree) (unit : sign ≠ 0)
    (raises : RaisesTo degree name p y) :
    GivesNumber (sign ^ degree * x * y)
      (pow (timesSymbol w (symbol sign name p)) (Expr.number degree)) := by
  obtain ⟨n, power⟩ := pow_number_eq (timesSymbol w (symbol sign name p)) degree
  rw [power]
  cases root with
  | @number c positive value =>
    have gives := raises.givesNumber several (mul_ne_zero positive.ne' unit) (n + 1)
    rw [mul_pow, value, mul_comm x] at gives
    simpa [timesSymbol, scale, positive.ne', withCoeff, coeff, mul_comm] using gives
  | @root c k positive large value =>
    have gives := (raisesTo_root (n := k) (by omega) several).givesNumber_product raises several
      (mul_ne_zero positive.ne' unit) n
    rw [mul_pow, mul_comm (c ^ degree), mul_assoc (sign ^ degree), value] at gives
    exact gives

/-- The root of a positive number is a root of it; that of a negative one is, by its degree, such a root
with a sign, or times the imaginary unit, or times a power of minus one. -/
theorem powNumber_cases {v q : ℚ} {w : Expr} (nonzero : v ≠ 0) (fractional : q.den ≠ 1)
    (returned : powNumber v q = .ok w) :
    0 < v ∧ IsRootOf (v ^ q.num) q.den w ∨
      v < 0 ∧ ∃ m, IsRootOf ((-v) ^ q.num) q.den m ∧
        (q.den % 2 = 1 ∧ w = (if q.num % 2 = 0 then m else m.withCoeff (-m.coeff)) ∨
          Odd q.num ∧ ∃ sign name p, sign ≠ 0 ∧ sign ^ q.den = 1 ∧
            w = timesSymbol m (symbol sign name p) ∧ RaisesTo q.den name p (-1)) := by
  have several : 2 ≤ q.den := by
    have := q.den_pos
    omega
  unfold powNumber at returned
  rw [if_neg (by simpa [Rational.isInteger] using fractional), if_neg nonzero] at returned
  split at returned
  next one =>
    cases returned
    exact .inl ⟨by rw [one]; exact one_pos, .number one_pos (by rw [one, one_zpow, one_pow])⟩
  split at returned
  next positive => exact .inl ⟨positive, rootOfPositive_isRootOf positive returned⟩
  next _ other =>
    have negative : v < 0 := lt_of_le_of_ne (not_lt.mp other) nonzero
    obtain ⟨m, found, returned⟩ := Outcome.bind_ok returned
    refine .inr ⟨negative, m, rootOfPositive_isRootOf (neg_pos.mpr negative) found, ?_⟩
    split at returned
    next odd => exact .inl ⟨odd, (Except.ok.inj returned).symm⟩
    next uneven =>
      have odd : Odd q.num := by
        have reduced : q.num.natAbs.Coprime 2 :=
          q.reduced.coprime_dvd_right (Nat.dvd_of_mod_eq_zero (by omega))
        rwa [Nat.coprime_two_right, Int.natAbs_odd] at reduced
      refine .inr ⟨odd, ?_⟩
      split at returned
      next half =>
        cases returned
        rw [half]
        rcases powerOfI_of_odd (Int.odd_iff.mp odd) with same | same
        · exact ⟨1, "i", 1, one_ne_zero, one_pow _, by rw [same], raisesTo_i⟩
        · exact ⟨-1, "i", 1, by norm_num, by norm_num, by rw [same], raisesTo_i⟩
      next =>
        cases returned
        refine ⟨1, "-1", _, one_ne_zero, one_pow _, rfl,
          raisesTo_minus_one (m := q.num - 2 * (q / 2).floor * q.den) ?_ ?_⟩
        · rw [sub_mul, Rat.mul_den_eq_num]
          push_cast
          ring
        · have : (2 * (q / 2).floor * q.den : ℤ) % 2 = 0 := by
            rw [mul_assoc]
            exact Int.mul_emod_right 2 _
          have := Int.odd_iff.mp odd
          omega

/-- Whatever the power with an exponent that is not whole is kept as, it is a root of the power of the
number; and of a positive number it is a positive number with at most one root of an integer. -/
theorem powNumber_is_exact_root {v q : ℚ} {w : Expr} (nonzero : v ≠ 0) (fractional : q.den ≠ 1)
    (returned : powNumber v q = .ok w) :
    GivesNumber (v ^ q.num) (pow w (number q.den)) ∧
      (0 < v → ∃ (c : ℚ) (r : ℕ), 0 < c ∧ c ^ q.den * r = v ^ q.num ∧
        (r = 1 ∧ w = number c ∨ 2 ≤ r ∧ w = symbol c (toString r) (mkRat 1 q.den))) := by
  have several : 2 ≤ q.den := by
    have := q.den_pos
    omega
  rcases powNumber_cases nonzero fractional returned with ⟨positive, root⟩ | ⟨negative, m, root, parts⟩
  · refine ⟨by simpa using root.givesNumber several one_ne_zero, fun _ => ?_⟩
    cases root with
    | @number c positive value => exact ⟨c, 1, positive, by simpa using value, .inl ⟨rfl, rfl⟩⟩
    | @root c r positive large value => exact ⟨c, r, positive, value, .inr ⟨large, rfl⟩⟩
  · refine ⟨?_, fun positive => absurd positive negative.not_gt⟩
    rcases parts with ⟨odd, rfl⟩ | ⟨oddNum, sign, name, p, unit, power, rfl, raises⟩
    · split
      next evenNum =>
        have gives := root.givesNumber several one_ne_zero
        rw [(Int.even_iff.mpr evenNum).neg_zpow] at gives
        simpa using gives
      next uneven =>
        have gives := root.givesNumber several (neg_ne_zero.mpr one_ne_zero)
        rw [(Nat.odd_iff.mpr odd).neg_one_pow, (Int.odd_iff.mpr (by omega)).neg_zpow] at gives
        simpa using gives
    · have gives := root.givesNumber_timesSymbol several unit raises
      rw [power, oddNum.neg_zpow] at gives
      simpa using gives

/-- The root of a negative number with an even degree above two. -/
theorem powNumber_minus_twelve :
    (-12 : ℚ) ≠ 0 ∧ (3 / 4 : ℚ).den ≠ 1 ∧ ∃ w, powNumber (-12) (3 / 4) = .ok w ∧
      w.render = .ok "2*(-1)^(3/4)*108^(1/4)" ∧
      GivesNumber ((-12) ^ (3 / 4 : ℚ).num) (pow w (number (3 / 4 : ℚ).den)) := by
  have shown : ((powNumber (-12) (3 / 4)).toOption.map fun w => w.render.toOption) =
      some (some "2*(-1)^(3/4)*108^(1/4)") := by decide +kernel
  obtain ⟨w, returned, text⟩ := Option.map_eq_some_iff.mp shown
  have nonzero : (-12 : ℚ) ≠ 0 := by decide +kernel
  have fractional : (3 / 4 : ℚ).den ≠ 1 := by decide +kernel
  exact ⟨nonzero, fractional, w, Outcome.ok_of_toOption returned, Outcome.ok_of_toOption text,
    (powNumber_is_exact_root nonzero fractional (Outcome.ok_of_toOption returned)).1⟩

end ExactAlgebra.Expr
