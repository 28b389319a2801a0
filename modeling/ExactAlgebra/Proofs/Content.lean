import ExactAlgebra.Arithmetic.Sum
import Mathlib

/-! The content of finitely many numbers: each is an integer multiple of it, and these integers have
no common divisor. -/
namespace ExactAlgebra.Expr

/-- The greatest common divisor of the numerators. -/
def commonDivisor (coeffs : List Rat) : Nat := coeffs.foldl (fun g c => Nat.gcd g c.num.natAbs) 0

/-- The least common multiple of the denominators. -/
def commonDenominator (coeffs : List Rat) : Nat := coeffs.foldl (fun l c => Nat.lcm l c.den) 1

theorem content_eq (coeffs : List Rat) :
    content coeffs = mkRat (commonDivisor coeffs) (commonDenominator coeffs) := rfl

theorem dvd_foldl_gcd (d g : Nat) (coeffs : List Rat) :
    d ∣ coeffs.foldl (fun g c => Nat.gcd g c.num.natAbs) g ↔
      d ∣ g ∧ ∀ c ∈ coeffs, d ∣ c.num.natAbs := by
  induction coeffs generalizing g with
  | nil => simp
  | cons c rest ih => simp [ih, Nat.dvd_gcd_iff, and_assoc]

theorem dvd_commonDivisor {d : Nat} {coeffs : List Rat} :
    d ∣ commonDivisor coeffs ↔ ∀ c ∈ coeffs, d ∣ c.num.natAbs := by
  simp [commonDivisor, dvd_foldl_gcd]

theorem commonDivisor_neg (coeffs : List Rat) :
    commonDivisor (coeffs.map fun c => -c) = commonDivisor coeffs := by
  simp [commonDivisor, List.foldl_map]

theorem foldl_lcm_dvd (l m : Nat) (coeffs : List Rat) :
    coeffs.foldl (fun l c => Nat.lcm l c.den) l ∣ m ↔ l ∣ m ∧ ∀ c ∈ coeffs, c.den ∣ m := by
  induction coeffs generalizing l with
  | nil => simp
  | cons c rest ih => simp [ih, Nat.lcm_dvd_iff, and_assoc]

theorem commonDenominator_dvd {m : Nat} {coeffs : List Rat} :
    commonDenominator coeffs ∣ m ↔ ∀ c ∈ coeffs, c.den ∣ m := by
  simp [commonDenominator, foldl_lcm_dvd]

/-- The content does not depend on the order of the numbers. -/
theorem content_perm {coeffs others : List Rat} (perm : coeffs.Perm others) :
    content coeffs = content others := by
  have divisors : RightCommutative fun (g : Nat) (c : Rat) => Nat.gcd g c.num.natAbs :=
    ⟨fun g c d => by rw [Nat.gcd_assoc, Nat.gcd_comm c.num.natAbs, ← Nat.gcd_assoc]⟩
  have multiples : RightCommutative fun (l : Nat) (c : Rat) => Nat.lcm l c.den :=
    ⟨fun l c d => by rw [Nat.lcm_assoc, Nat.lcm_comm c.den, ← Nat.lcm_assoc]⟩
  rw [content, content, perm.foldl_eq, perm.foldl_eq]

theorem commonDivisor_pos {coeffs : List Rat} {c : Rat} (member : c ∈ coeffs) (nonzero : c ≠ 0) :
    0 < commonDivisor coeffs := by
  have divides : commonDivisor coeffs ∣ c.num.natAbs := dvd_commonDivisor.mp dvd_rfl c member
  refine Nat.pos_of_dvd_of_pos divides ?_
  simpa [Nat.pos_iff_ne_zero] using nonzero

theorem commonDenominator_pos (coeffs : List Rat) : 0 < commonDenominator coeffs := by
  have divides : commonDenominator coeffs ∣ (coeffs.map Rat.den).prod :=
    commonDenominator_dvd.mpr fun c member => List.dvd_prod (List.mem_map_of_mem member)
  refine Nat.pos_of_dvd_of_pos divides (List.prod_pos ?_)
  simp only [List.mem_map, forall_exists_index, and_imp]
  rintro _ c _ rfl
  exact c.den_pos

theorem content_pos {coeffs : List Rat} {c : Rat} (member : c ∈ coeffs) (nonzero : c ≠ 0) :
    0 < content coeffs := by
  rw [content_eq, Rat.mkRat_eq_div]
  have above : (0 : ℚ) < (commonDivisor coeffs : ℤ) := by
    exact_mod_cast commonDivisor_pos member nonzero
  have below : (0 : ℚ) < commonDenominator coeffs := by
    exact_mod_cast commonDenominator_pos coeffs
  exact div_pos above below

/-- Of an integer multiple the numerator is a multiple and the denominator a divisor. -/
theorem num_dvd_and_den_dvd {c q : Rat} {k : Int} (multiple : c = k * q) :
    q.num ∣ c.num ∧ c.den ∣ q.den := by
  have crossed : c.num * q.den = k * q.num * c.den := by
    have cden : (c.den : ℚ) ≠ 0 := by exact_mod_cast c.den_nz
    have qden : (q.den : ℚ) ≠ 0 := by exact_mod_cast q.den_nz
    have values : (c.num : ℚ) / c.den = k * (q.num / q.den) := by
      rw [Rat.num_div_den, Rat.num_div_den, multiple]
    rw [div_eq_iff cden] at values
    have cleared : (c.num : ℚ) * q.den = k * q.num * c.den := by
      rw [values]
      field_simp
    exact_mod_cast cleared
  constructor
  · have coprime : IsCoprime q.num (q.den : ℤ) :=
      Int.isCoprime_iff_nat_coprime.mpr (by simpa using q.reduced)
    apply coprime.dvd_of_dvd_mul_right
    exact ⟨k * c.den, by rw [crossed]; ring⟩
  · have coprime : IsCoprime (c.den : ℤ) c.num :=
      (Int.isCoprime_iff_nat_coprime.mpr (by simpa using c.reduced)).symm
    have divides : (c.den : ℤ) ∣ q.den := by
      apply coprime.dvd_of_dvd_mul_left
      exact ⟨k * q.num, by rw [crossed]; ring⟩
    exact_mod_cast divides

/-- Each number is an integer multiple of the content. -/
theorem exists_eq_mul_content {coeffs : List Rat} {c : Rat} (member : c ∈ coeffs)
    (nonzero : c ≠ 0) : ∃ k : Int, c = k * content coeffs := by
  obtain ⟨above, hAbove⟩ := dvd_commonDivisor.mp (dvd_refl (commonDivisor coeffs)) c member
  obtain ⟨below, hBelow⟩ := commonDenominator_dvd.mp (dvd_refl (commonDenominator coeffs)) c member
  have divisor : (commonDivisor coeffs : ℚ) ≠ 0 := by
    exact_mod_cast (commonDivisor_pos member nonzero).ne'
  have denominator : (commonDenominator coeffs : ℚ) ≠ 0 := by
    exact_mod_cast (commonDenominator_pos coeffs).ne'
  have cden : (c.den : ℚ) ≠ 0 := by exact_mod_cast c.den_nz
  have size : (c.num : ℚ) = c.num.sign * (commonDivisor coeffs * above) := by
    have parts : c.num = c.num.sign * (commonDivisor coeffs * above : ℕ) := by
      rw [← hAbove, Int.sign_mul_natAbs]
    exact_mod_cast parts
  have whole : (commonDenominator coeffs : ℚ) = c.den * below := by exact_mod_cast hBelow
  refine ⟨c.num.sign * above * below, ?_⟩
  rw [content_eq, Rat.mkRat_eq_div]
  nth_rewrite 1 [← Rat.num_div_den c]
  rw [size]
  push_cast
  rw [div_eq_iff cden]
  field_simp
  rw [whole]
  ring

theorem div_content_den {coeffs : List Rat} {c : Rat} (member : c ∈ coeffs) (nonzero : c ≠ 0) :
    (c / content coeffs).den = 1 := by
  obtain ⟨k, multiple⟩ := exists_eq_mul_content member nonzero
  have positive := content_pos member nonzero
  have quotient : c / content coeffs = (k : ℚ) := by
    rw [div_eq_iff positive.ne']
    exact multiple
  rw [quotient, Rat.den_intCast]

/-- Divided by their content, numbers are integers without a common divisor. -/
theorem commonDivisor_div_content {coeffs : List Rat} (present : coeffs ≠ [])
    (nonzero : ∀ c ∈ coeffs, c ≠ 0) :
    commonDivisor (coeffs.map (· / content coeffs)) = 1 := by
  obtain ⟨first, hFirst⟩ := List.exists_mem_of_ne_nil coeffs present
  have positive := content_pos hFirst (nonzero first hFirst)
  set h := commonDivisor (coeffs.map (· / content coeffs)) with hh
  -- All numbers are multiples of `q`, so `q` cannot exceed the content.
  set q : ℚ := h * content coeffs with hq
  have multiples : ∀ c ∈ coeffs, ∃ k : Int, c = k * q := by
    intro c member
    have divides := dvd_commonDivisor.mp (dvd_refl h) (c / content coeffs)
      (List.mem_map_of_mem member)
    obtain ⟨k, hk⟩ := Int.natCast_dvd.mpr divides
    have integral := div_content_den member (nonzero c member)
    refine ⟨k, ?_⟩
    have value : c / content coeffs = h * k := by
      rw [← Rat.num_div_den (c / content coeffs), integral, hk]
      push_cast
      ring
    rw [div_eq_iff positive.ne'] at value
    rw [value, hq]
    ring
  have above : q.num.natAbs ∣ commonDivisor coeffs := by
    refine dvd_commonDivisor.mpr fun c member => ?_
    obtain ⟨k, multiple⟩ := multiples c member
    exact Int.natAbs_dvd_natAbs.mpr (num_dvd_and_den_dvd multiple).1
  have below : commonDenominator coeffs ∣ q.den := by
    refine commonDenominator_dvd.mpr fun c member => ?_
    obtain ⟨k, multiple⟩ := multiples c member
    exact (num_dvd_and_den_dvd multiple).2
  have denominator := commonDenominator_pos coeffs
  have divisor := commonDivisor_pos hFirst (nonzero first hFirst)
  have crossed : q.num.natAbs * commonDenominator coeffs =
      h * commonDivisor coeffs * q.den := by
    have dpos : (commonDenominator coeffs : ℚ) ≠ 0 := by exact_mod_cast denominator.ne'
    have qden : (q.den : ℚ) ≠ 0 := by exact_mod_cast q.den_nz
    have value : (q.num : ℚ) / q.den = h * (commonDivisor coeffs / commonDenominator coeffs) := by
      rw [Rat.num_div_den, hq, content_eq, Rat.mkRat_eq_div]
      push_cast
      ring
    rw [div_eq_iff qden] at value
    have cleared : (q.num : ℚ) * commonDenominator coeffs = h * commonDivisor coeffs * q.den := by
      rw [value]
      field_simp
    have sign : 0 ≤ q := by positivity
    have numerator : (q.num.natAbs : ℤ) = q.num :=
      Int.natAbs_of_nonneg (Rat.num_nonneg.mpr sign)
    have integers : q.num * (commonDenominator coeffs : ℤ) =
        h * commonDivisor coeffs * q.den := by exact_mod_cast cleared
    rw [← numerator] at integers
    exact_mod_cast integers
  obtain ⟨s, hs⟩ := above
  obtain ⟨t, ht⟩ := below
  rw [hs, ht] at crossed
  have numerator : 0 < q.num.natAbs := Nat.pos_of_dvd_of_pos ⟨s, hs⟩ divisor
  have unit : h * (s * t) = 1 := by
    refine Nat.eq_of_mul_eq_mul_left (Nat.mul_pos numerator denominator) ?_
    calc
      q.num.natAbs * commonDenominator coeffs * (h * (s * t)) =
          h * (q.num.natAbs * s) * (commonDenominator coeffs * t) := by ring
      _ = q.num.natAbs * commonDenominator coeffs * 1 := by rw [← crossed, mul_one]
  exact Nat.eq_one_of_mul_eq_one_right unit

/-- Numbers that `q` divides into whole ones without a common divisor are divided into whole ones by
`r` only when `q` is a whole multiple of `r`. -/
theorem den_eq_one_of_coprime {coeffs : List Rat} {q r : Rat} (nonzero : q ≠ 0)
    (integralQ : ∀ c ∈ coeffs, (c / q).den = 1) (integralR : ∀ c ∈ coeffs, (c / r).den = 1)
    (coprime : commonDivisor (coeffs.map (· / q)) = 1) : (q / r).den = 1 := by
  refine Nat.dvd_one.mp (coprime ▸ dvd_commonDivisor.mpr fun k member => ?_)
  obtain ⟨c, inside, rfl⟩ := List.mem_map.mp member
  have ratio : c / r = (c / q).num * (q / r) := by
    rw [Rat.coe_int_num_of_den_eq_one (integralQ c inside), div_mul_div_cancel₀ nonzero]
  have crossed : (c / r).num * (q / r).den = (c / q).num * (q / r).num := by
    have below : ((q / r).den : ℚ) ≠ 0 := by exact_mod_cast (q / r).den_nz
    have values : ((c / r).num : ℚ) * (q / r).den = (c / q).num * (q / r).num := by
      rw [Rat.coe_int_num_of_den_eq_one (integralR c inside), ratio, mul_assoc, Rat.mul_den_eq_num]
    exact_mod_cast values
  refine (Nat.Coprime.symm (q / r).reduced).dvd_of_dvd_mul_right ?_
  rw [← Int.natAbs_mul, ← crossed, Int.natAbs_mul, Int.natAbs_natCast]
  exact dvd_mul_left _ _

/-- The content is the only positive number that leaves whole numbers without a common divisor. -/
theorem content_eq_of_coprime {coeffs : List Rat} {q : Rat} (positive : 0 < q)
    (present : coeffs ≠ []) (nonzero : ∀ c ∈ coeffs, c ≠ 0)
    (integral : ∀ c ∈ coeffs, (c / q).den = 1)
    (coprime : commonDivisor (coeffs.map (· / q)) = 1) : content coeffs = q := by
  obtain ⟨first, inside⟩ := List.exists_mem_of_ne_nil coeffs present
  have positiveContent := content_pos inside (nonzero first inside)
  have divided : ∀ c ∈ coeffs, (c / content coeffs).den = 1 :=
    fun c member => div_content_den member (nonzero c member)
  have upper := den_eq_one_of_coprime positive.ne' integral divided coprime
  have lower := den_eq_one_of_coprime positiveContent.ne' divided integral
    (commonDivisor_div_content present nonzero)
  -- A positive whole number whose reciprocal is whole is one.
  have inverse : (q / content coeffs).num * (content coeffs / q).num = 1 := by
    have values : ((q / content coeffs).num : ℚ) * (content coeffs / q).num = 1 := by
      rw [Rat.coe_int_num_of_den_eq_one upper, Rat.coe_int_num_of_den_eq_one lower,
        div_mul_div_cancel₀ positiveContent.ne', div_self positive.ne']
    exact_mod_cast values
  have sign : 0 ≤ (q / content coeffs).num :=
    Rat.num_nonneg.mpr (div_nonneg positive.le positiveContent.le)
  have unit : q / content coeffs = 1 := by
    rw [← Rat.coe_int_num_of_den_eq_one upper, Int.eq_one_of_mul_eq_one_right sign inverse,
      Int.cast_one]
  exact ((div_eq_one_iff_eq positiveContent.ne').mp unit).symm

end ExactAlgebra.Expr
