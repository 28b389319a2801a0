import ExactAlgebra.Proofs.AdditionValue
import ExactAlgebra.Proofs.IntegerRoot
import ExactAlgebra.Proofs.Multiplication
import ExactAlgebra.Proofs.TermKey
import Mathlib

/-! Expressions as complex numbers. Powers are principal ones, so the square root of a positive
integer is positive; an exact root of a number is a root of it. -/
namespace ExactAlgebra

/-- What unknowns and functions stand for when expressions are read as complex numbers. -/
structure Reading where
  unknown : String → ℂ
  function : String → List ℂ → ℂ

/-- The number that a name stands for. An integer kept under a root has its text as name. -/
noncomputable def Reading.name (ρ : Reading) (name : String) : ℂ :=
  if name = "i" then Complex.I
  else if name = "pi" then Real.pi
  else if name = "e" then Complex.exp 1
  else if isIntegerText name then integerOf name
  else ρ.unknown name

namespace Expr

variable {ρ : Reading}

mutual
noncomputable def complexValue (ρ : Reading) : Expr → ℂ
  | number c => c
  | symbol c name p => c * ρ.name name ^ (p : ℂ)
  | call c name args p => c * ρ.function name (complexValues ρ args) ^ (p : ℂ)
  | sum c terms p => c * (complexValues ρ terms).sum ^ (p : ℂ)
  | product c factors => c * (complexValues ρ factors).prod
  | exponential c base exponent => c * complexValue ρ base ^ complexValue ρ exponent
  | foreign _ => 0

noncomputable def complexValues (ρ : Reading) : List Expr → List ℂ
  | [] => []
  | e :: es => complexValue ρ e :: complexValues ρ es
end

theorem complexValues_eq (es : List Expr) : complexValues ρ es = es.map (complexValue ρ) := by
  induction es with
  | nil => rfl
  | cons e es ih => rw [complexValues, ih, List.map_cons]

theorem addsUp_complexValue (ρ : Reading) : AddsUp (complexValue ρ) where
  number _ := rfl
  unit e := by cases e <;> simp [withCoeff, unit, complexValue, coeff]
  withCoeff e c := by cases e <;> simp [withCoeff, unit, complexValue]
  sum c terms := by rw [complexValue, complexValues_eq, Rat.cast_one, Complex.cpow_one]

theorem complexValue_scale (e : Expr) (c : ℚ) :
    complexValue ρ (e.scale c) = c * complexValue ρ e := by
  unfold scale
  split
  next zeroed => simp [zeroed, zero, complexValue]
  next =>
    rw [(addsUp_complexValue ρ).withCoeff, (addsUp_complexValue ρ).unit e, Rat.cast_mul]
    ring

theorem complexValue_neg (e : Expr) : complexValue ρ e.neg = -complexValue ρ e := by
  rw [neg, (addsUp_complexValue ρ).withCoeff, (addsUp_complexValue ρ).unit e, Rat.cast_neg]
  ring

theorem name_toString (n : ℕ) : ρ.name (toString n) = n := by
  have apart {key : String} {c : Char} (member : c ∈ key.toList) (other : c.isDigit = false) :
      toString n ≠ key := toString_ne_of_mem member other
  rw [Reading.name, if_neg (apart (c := 'i') (by decide) (by decide)),
    if_neg (apart (c := 'p') (by decide) (by decide)),
    if_neg (apart (c := 'e') (by decide) (by decide)), if_pos (Text.isIntegerText_toString n),
    Text.integerOf_toString]
  exact Int.cast_natCast n

theorem name_i : ρ.name "i" = Complex.I := if_pos rfl

/-- The root of an integer is read as the positive root. -/
theorem complexValue_root (c : ℚ) (n degree : ℕ) :
    complexValue ρ (symbol c (toString n) (mkRat 1 degree)) =
      ((c * (n : ℝ) ^ (degree : ℝ)⁻¹ : ℝ) : ℂ) := by
  have root : (mkRat 1 degree : ℂ) = ((degree : ℝ)⁻¹ : ℝ) := by
    rw [Rat.mkRat_eq_div]
    push_cast
    ring
  rw [complexValue, name_toString, root, Complex.ofReal_mul, Complex.ofReal_cpow (by positivity)]
  push_cast
  rfl

/-- A root is read as the positive number whose power with the degree is the given number. -/
theorem IsRootOf.complexValue {x : ℚ} {degree : ℕ} {e : Expr} (root : IsRootOf x degree e)
    (proper : degree ≠ 0) : e.complexValue ρ = (((x : ℝ) ^ (degree : ℝ)⁻¹ : ℝ) : ℂ) := by
  cases root with
  | @number c positive value =>
    have nonnegative : (0 : ℝ) ≤ c := by exact_mod_cast positive.le
    rw [← value, Rat.cast_pow, Real.pow_rpow_inv_natCast nonnegative proper]
    simp [Expr.complexValue]
  | @root c n positive large value =>
    have nonnegative : (0 : ℝ) ≤ c := by exact_mod_cast positive.le
    rw [complexValue_root, ← value, Rat.cast_mul, Rat.cast_pow, Rat.cast_natCast,
      Real.mul_rpow (by positivity) (by positivity), Real.pow_rpow_inv_natCast nonnegative proper]

theorem complexValue_rootOfPositive {value exponent : ℚ} {r : Expr} (positive : 0 < value)
    (returned : rootOfPositive value exponent = .ok r) :
    complexValue ρ r = (((value : ℝ) ^ (exponent : ℝ) : ℝ) : ℂ) := by
  have positiveR : (0 : ℝ) < value := by exact_mod_cast positive
  rw [(rootOfPositive_isRootOf positive returned).complexValue exponent.den_nz, Rat.cast_zpow,
    ← Real.rpow_intCast, ← Real.rpow_mul positiveR.le, Rat.cast_def exponent, div_eq_mul_inv]

theorem complexValue_timesSymbol (m u : Expr) :
    complexValue ρ (timesSymbol m u) = complexValue ρ m * complexValue ρ u := by
  unfold timesSymbol
  split
  next c => exact complexValue_scale u c
  next =>
    rw [(addsUp_complexValue ρ).unit m, (addsUp_complexValue ρ).unit u]
    simp only [complexValue, complexValues, List.prod_cons, List.prod_nil, Rat.cast_mul]
    ring

theorem sq_rpow_half {d : ℝ} (nonnegative : 0 ≤ d) : (d ^ (((1 / 2 : ℚ)) : ℝ)) ^ 2 = d := by
  have half : ((1 / 2 : ℚ) : ℝ) = 1 / 2 := by push_cast; rfl
  rw [half, ← Real.sqrt_eq_rpow, Real.sq_sqrt nonnegative]

theorem half_num_den : (1 / 2 : ℚ).num = 1 ∧ (1 / 2 : ℚ).den = 2 := by simp

/-- The root of a positive number is a root of it; that of a negative one has the imaginary unit as a
further factor. -/
theorem powNumber_half_cases {d : ℚ} {r : Expr} (returned : powNumber d (1 / 2) = .ok r) :
    d = 0 ∧ r = number 0 ∨ d = 1 ∧ r = number 1 ∨
      0 < d ∧ rootOfPositive d (1 / 2) = .ok r ∨
      d < 0 ∧ ∃ m, rootOfPositive (-d) (1 / 2) = .ok m ∧ r = timesSymbol m (bare "i") := by
  unfold powNumber at returned
  split at returned
  next whole => simp [Rational.isInteger] at whole
  split at returned
  next zero => exact .inl ⟨zero, (Except.ok.inj returned).symm⟩
  split at returned
  next one => exact .inr (.inl ⟨one, (Except.ok.inj returned).symm⟩)
  split at returned
  next positive => exact .inr (.inr (.inl ⟨positive, returned⟩))
  next nonzero _ other =>
    obtain ⟨m, found, returned⟩ := Outcome.bind_ok returned
    refine .inr (.inr (.inr ⟨lt_of_le_of_ne (not_lt.mp other) nonzero, m, found, ?_⟩))
    split at returned
    next odd => simp at odd
    split at returned
    next =>
      rw [half_num_den.1] at returned
      exact (Except.ok.inj returned).symm
    next uneven => exact absurd half_num_den.2 uneven

theorem sqrt_number {d : ℚ} : sqrt (number d) = powNumber d (1 / 2) := by
  have limit : workLimit (number d) (number d) = 255 + 1 := rfl
  rw [sqrt, powRat, limit, powRatWithin, if_neg (by norm_num), if_neg (by norm_num)]
  split
  next zero =>
    subst zero
    rw [if_neg (by norm_num)]
    simp [powNumber, Rational.isInteger]
  next => rfl

theorem complexValue_sqrt_number {d : ℚ} {r : Expr} (returned : sqrt (number d) = .ok r) :
    complexValue ρ r ^ 2 = d := by
  rw [sqrt_number] at returned
  rcases powNumber_half_cases returned with
    ⟨rfl, rfl⟩ | ⟨rfl, rfl⟩ | ⟨positive, root⟩ | ⟨negative, m, root, rfl⟩
  · simp [complexValue]
  · simp [complexValue]
  · rw [complexValue_rootOfPositive positive root, ← Complex.ofReal_pow,
      sq_rpow_half (by exact_mod_cast positive.le)]
    norm_cast
  · have positive : 0 < -d := neg_pos.mpr negative
    rw [complexValue_timesSymbol, complexValue_rootOfPositive positive root, mul_pow,
      ← Complex.ofReal_pow, sq_rpow_half (by exact_mod_cast positive.le)]
    simp [complexValue, bare, name_i]

end Expr
end ExactAlgebra
