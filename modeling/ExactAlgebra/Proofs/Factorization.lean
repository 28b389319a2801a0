import ExactAlgebra.Proofs.RationalRoots
import Mathlib

/-! Taking polynomials apart. The arithmetic on coefficients is that of polynomials, Euclid's rule gives
greatest common divisors, and splitting off one multiplicity after the other gives the square-free parts.
Whatever rational roots were looked for, the factors have no common divisor and their product is the
polynomial up to a constant. -/
namespace ExactAlgebra.Poly
open Polynomial

variable {p q d : Poly}

theorem ofCoefficients_addLists (cs ds : List ℚ) :
    ofCoefficients (addLists cs ds) = ofCoefficients cs + ofCoefficients ds := by
  fun_induction addLists cs ds with
  | case1 ds => rw [ofCoefficients, zero_add]
  | case2 cs => rw [ofCoefficients, add_zero]
  | case3 c cs d ds ih =>
    rw [ofCoefficients, ofCoefficients, ofCoefficients, ih, C_add]
    ring

theorem ofCoefficients_mulLists (cs ds : List ℚ) :
    ofCoefficients (mulLists cs ds) = ofCoefficients cs * ofCoefficients ds := by
  induction cs with
  | nil => rw [mulLists, ofCoefficients, zero_mul]
  | cons c cs ih =>
    rw [mulLists, ofCoefficients_addLists, ofCoefficients_map_mul, ofCoefficients, ofCoefficients, ih, C_0]
    ring

@[simp] theorem toPolynomial_mul (p q : Poly) :
    (mul p q).toPolynomial = p.toPolynomial * q.toPolynomial := by
  rw [mul, toPolynomial_ofList, ofCoefficients_mulLists, toPolynomial, toPolynomial]

@[simp] theorem toPolynomial_const (c : ℚ) : (const c).toPolynomial = C c := by
  rw [const, toPolynomial_ofList, ofCoefficients, ofCoefficients, mul_zero, add_zero]

@[simp] theorem toPolynomial_pow (p : Poly) (n : ℕ) : (pow p n).toPolynomial = p.toPolynomial ^ n := by
  induction n with
  | zero => rw [pow, toPolynomial_const, C_1, pow_zero]
  | succ n ih => rw [pow, toPolynomial_mul, ih, pow_succ]

@[simp] theorem toPolynomial_shift (n : ℕ) : (shift n).toPolynomial = X ^ n := by
  have zeros : ofCoefficients (List.replicate n 0) = 0 := by
    induction n with
    | zero => rfl
    | succ n ih => rw [List.replicate_succ, ofCoefficients, ih, C_0, mul_zero, add_zero]
  rw [shift, toPolynomial_ofList, ofCoefficients_append, zeros, List.length_replicate]
  simp [ofCoefficients]

theorem toPolynomial_scale (p : Poly) (k : ℚ) : (scale p k).toPolynomial = C k * p.toPolynomial := by
  rw [scale, toPolynomial_ofList, toPolynomial, ← ofCoefficients_map_mul]
  simp only [mul_comm]

theorem ofCoefficients_timesPowers (n : ℕ) (cs : List ℚ) :
    ofCoefficients (timesPowers n cs) =
      X * Polynomial.derivative (ofCoefficients cs) + C (n : ℚ) * ofCoefficients cs := by
  induction cs generalizing n with
  | nil => simp [timesPowers, ofCoefficients]
  | cons c cs ih =>
    rw [timesPowers, ofCoefficients, ofCoefficients, ih]
    simp only [derivative_add, derivative_C, derivative_mul, derivative_X, C_mul, Nat.cast_add,
      Nat.cast_one, C_add, C_1]
    ring

@[simp] theorem toPolynomial_derivative (p : Poly) :
    p.derivative.toPolynomial = Polynomial.derivative p.toPolynomial := by
  rw [derivative, toPolynomial_ofList, toPolynomial]
  cases p.coefficients with
  | nil => simp [timesPowers, ofCoefficients]
  | cons c cs =>
    rw [timesPowers, List.drop_one, List.tail_cons, ofCoefficients_timesPowers, ofCoefficients]
    simp only [derivative_add, derivative_C, derivative_mul, derivative_X, Nat.cast_one, zero_add, C_1]
    ring

/-- Scaling to the leading coefficient one changes a polynomial by a constant. -/
theorem associated_monic (p : Poly) : Associated p.monic.toPolynomial p.toPolynomial := by
  unfold monic
  split
  next => exact Associated.refl _
  next proper =>
    rw [isZero_iff] at proper
    have lead : p.leading⁻¹ ≠ 0 := by
      rw [leading_eq]
      exact inv_ne_zero (leadingCoeff_ne_zero.mpr proper)
    rw [toPolynomial_scale]
    exact associated_unit_mul_left _ _ (isUnit_C.mpr lead.isUnit)

theorem associated_primitive (nonzero : p.toPolynomial ≠ 0) :
    Associated p.primitive.2.toPolynomial p.toPolynomial := by
  obtain ⟨product, content, -⟩ := primitive_eq nonzero
  rw [product]
  exact (associated_unit_mul_left _ _ (isUnit_C.mpr content.isUnit)).symm

theorem dvd_quotRem (p : Poly) (nonzero : d.toPolynomial ≠ 0) {f : ℚ[X]} :
    f ∣ d.toPolynomial → (f ∣ p.toPolynomial ↔ f ∣ (rem p d).toPolynomial) := by
  intro divides
  obtain ⟨division, -⟩ := quotRem_eq p nonzero
  rw [division]
  exact dvd_add_right (divides.mul_left _)

/-- An exact division. -/
theorem quot_mul (nonzero : d.toPolynomial ≠ 0) (divides : d.toPolynomial ∣ p.toPolynomial) :
    (quot p d).toPolynomial * d.toPolynomial = p.toPolynomial := by
  obtain ⟨division, -⟩ := quotRem_eq p nonzero
  have none := (rem_isZero_iff p nonzero).mpr divides
  rw [isZero_iff] at none
  rw [none, add_zero] at division
  exact division.symm

theorem degree_lt_length (p : Poly) : p.toPolynomial.degree < p.coefficients.length :=
  degree_ofCoefficients_lt p.coefficients

/-- Euclid's rule: divisor and remainder take the place of dividend and divisor, until the divisor is
zero. -/
inductive Euclid : Poly → Poly → Poly → Prop
  | done {p q : Poly} (zero : q.isZero = true) : Euclid p q p
  | next {p q g : Poly} (proper : ¬ q.isZero = true) (later : Euclid q (rem p q) g) : Euclid p q g

/-- Euclid's rule comes to an end, because the degree of the divisor falls. -/
theorem euclid_gcdWithin {n : ℕ} {p q : Poly} (enough : q.toPolynomial.degree < n) :
    Euclid p q (gcdWithin (n + 1) p q) := by
  induction n generalizing p q with
  | zero =>
    have none : q.toPolynomial = 0 := by
      rw [← degree_eq_bot]
      exact Nat.WithBot.lt_zero_iff.mp (by exact_mod_cast enough)
    rw [gcdWithin, if_pos ((isZero_iff q).mpr none)]
    exact .done ((isZero_iff q).mpr none)
  | succ n ih =>
    rw [gcdWithin]
    split
    next none => exact .done none
    next proper =>
      have divisor : q.toPolynomial ≠ 0 := fun zero => proper ((isZero_iff q).mpr zero)
      obtain ⟨-, smaller⟩ := quot_mul_add_rem p divisor
      have short : (rem p q).toPolynomial.degree < n := by
        rw [degree_eq_natDegree divisor, Nat.cast_lt] at enough
        refine lt_of_lt_of_le smaller ?_
        rw [degree_eq_natDegree divisor, Nat.cast_le]
        omega
      exact .next proper (ih short)

/-- Dividend and divisor have the common divisors that divisor and remainder have. -/
theorem Euclid.dvd_iff {g : Poly} (run : Euclid p q g) {f : ℚ[X]} :
    f ∣ g.toPolynomial ↔ f ∣ p.toPolynomial ∧ f ∣ q.toPolynomial := by
  induction run with
  | done zero =>
    rw [isZero_iff] at zero
    rw [zero]
    exact (and_iff_left (dvd_zero f)).symm
  | next proper _ ih =>
    rw [isZero_iff] at proper
    rw [ih, and_comm]
    exact and_congr_left fun divides => (dvd_quotRem _ proper divides).symm

/-- The greatest common divisor is what Euclid's rule comes to. -/
theorem exists_euclid (p q : Poly) : ∃ g, Euclid p q g ∧ gcd p q = g.monic :=
  ⟨_, euclid_gcdWithin (degree_lt_length q), rfl⟩

/-- The common divisors are the divisors of the greatest one. -/
theorem dvd_gcd {f : ℚ[X]} :
    f ∣ (gcd p q).toPolynomial ↔ f ∣ p.toPolynomial ∧ f ∣ q.toPolynomial := by
  obtain ⟨g, run, same⟩ := exists_euclid p q
  rw [same, (associated_monic g).dvd_iff_dvd_right]
  exact run.dvd_iff

namespace Factors

noncomputable def product (factors : Factors) : ℚ[X] :=
  (factors.map fun f => f.1.toPolynomial ^ f.2).prod

/-- The factors are no constants, have no common divisors, and their product is the polynomial up to a
constant. -/
structure Split (factors : Factors) (P : ℚ[X]) : Prop where
  proper : ∀ f ∈ factors, 0 < f.1.toPolynomial.natDegree ∧ 0 < f.2
  coprime : factors.Pairwise fun f g => IsCoprime f.1.toPolynomial g.1.toPolynomial
  whole : Associated factors.product P

variable {factors others : Factors} {P Q : ℚ[X]}

theorem product_append (factors others : Factors) :
    Factors.product (factors ++ others) = factors.product * others.product := by
  rw [product, List.map_append, List.prod_append, product, product]

theorem product_cons (f : Poly × ℕ) (factors : Factors) :
    Factors.product (f :: factors) = f.1.toPolynomial ^ f.2 * factors.product := by
  rw [product, List.map_cons, List.prod_cons, product]

theorem product_ne_zero (nonzero : ∀ f ∈ factors, f.1.toPolynomial ≠ 0) : factors.product ≠ 0 := by
  induction factors with
  | nil => exact one_ne_zero
  | cons f rest ih =>
    obtain ⟨first, later⟩ := List.forall_mem_cons.mp nonzero
    rw [product_cons]
    exact mul_ne_zero (pow_ne_zero _ first) (ih later)

theorem isCoprime_product (apart : ∀ f ∈ factors, IsCoprime P f.1.toPolynomial) :
    IsCoprime P factors.product := by
  induction factors with
  | nil => exact isCoprime_one_right
  | cons f rest ih =>
    obtain ⟨first, later⟩ := List.forall_mem_cons.mp apart
    rw [product_cons]
    exact first.pow_right.mul_right (ih later)

theorem Split.ne_zero (split : factors.Split P) : ∀ f ∈ factors, f.1.toPolynomial ≠ 0 := by
  intro f member zero
  have proper := (split.proper f member).1
  rw [zero, natDegree_zero] at proper
  exact absurd proper (lt_irrefl 0)

theorem Split.dvd (split : factors.Split P) {f : Poly × ℕ} (member : f ∈ factors) :
    f.1.toPolynomial ∣ P := by
  have power : f.1.toPolynomial ^ f.2 ∣ factors.product := List.dvd_prod (List.mem_map_of_mem member)
  have base := dvd_pow_self f.1.toPolynomial (split.proper f member).2.ne'
  exact (base.trans power).trans split.whole.dvd

theorem Split.nil (unit : IsUnit P) : Factors.Split [] P :=
  ⟨by simp, .nil, associated_one_iff_isUnit.mpr unit |>.symm⟩

theorem Split.congr (split : factors.Split P) (same : Associated P Q) : factors.Split Q :=
  ⟨split.proper, split.coprime, split.whole.trans same⟩

/-- Factors of polynomials without a common divisor. -/
theorem Split.append (split : factors.Split P) (splitOthers : others.Split Q) (apart : IsCoprime P Q) :
    Factors.Split (factors ++ others) (P * Q) := by
  refine ⟨?_, ?_, ?_⟩
  · intro f member
    rcases List.mem_append.mp member with left | right
    · exact split.proper f left
    · exact splitOthers.proper f right
  · rw [List.pairwise_append]
    refine ⟨split.coprime, splitOthers.coprime, ?_⟩
    intro f left g right
    exact (apart.of_isCoprime_of_dvd_left (split.dvd left)).of_isCoprime_of_dvd_right
      (splitOthers.dvd right)
  · rw [product_append]
    exact split.whole.mul_mul splitOthers.whole

theorem Split.single {f : Poly} {n : ℕ} (proper : 0 < f.toPolynomial.natDegree) (positive : 0 < n)
    (power : Associated (f.toPolynomial ^ n) P) : Factors.Split [(f, n)] P := by
  refine ⟨?_, List.pairwise_singleton _ _, ?_⟩
  · intro g member
    obtain rfl := List.mem_singleton.mp member
    exact ⟨proper, positive⟩
  · rwa [product, List.map_singleton, List.prod_singleton]

/-- Factors may be changed by constants. -/
theorem Split.map (split : factors.Split P) {change : Poly → Poly}
    (same : ∀ f ∈ factors, Associated (change f.1).toPolynomial f.1.toPolynomial) :
    Factors.Split (factors.map fun f => (change f.1, f.2)) P := by
  refine ⟨?_, ?_, ?_⟩
  · intro f member
    obtain ⟨g, inside, rfl⟩ := List.mem_map.mp member
    obtain ⟨proper, positive⟩ := split.proper g inside
    refine ⟨?_, positive⟩
    rwa [natDegree_eq_of_degree_eq (degree_eq_degree_of_associated (same g inside))]
  · rw [List.pairwise_map]
    refine split.coprime.imp_of_mem ?_
    intro f g left right apart
    exact (apart.of_isCoprime_of_dvd_left (same f left).dvd).of_isCoprime_of_dvd_right
      (same g right).dvd
  · refine Associated.trans ?_ split.whole
    clear split
    induction factors with
    | nil => exact Associated.refl _
    | cons f rest ih =>
      rw [List.map_cons, product_cons, product_cons]
      refine ((same f List.mem_cons_self).pow_pow).mul_mul (ih ?_)
      intro g later
      exact same g (List.mem_cons_of_mem f later)

end Factors

/-- Every prime divisor of the second polynomial divides the first one, which no square divides. -/
structure Covers (w c : ℚ[X]) : Prop where
  squarefree : Squarefree w
  nonzero : c ≠ 0
  prime : ∀ r, Prime r → r ∣ c → r ∣ w

/-- A prime factor occurs in the derivative once less. -/
theorem dvd_of_pow_dvd_derivative {r g : ℚ[X]} {m : ℕ} (prime : Prime r)
    (derived : r ^ (m + 1) ∣ Polynomial.derivative (r ^ (m + 1) * g)) : r ∣ g := by
  rw [derivative_mul, derivative_pow_succ] at derived
  have lower : r ^ (m + 1) ∣ r ^ m * (C ((m : ℚ) + 1) * Polynomial.derivative r * g) := by
    have rest := (dvd_add_left (dvd_mul_right (r ^ (m + 1)) (Polynomial.derivative g))).mp derived
    convert rest using 1
    ring
  rw [pow_succ, mul_dvd_mul_iff_left (pow_ne_zero m prime.ne_zero)] at lower
  have unit : IsUnit (C ((m : ℚ) + 1)) := isUnit_C.mpr (Nat.cast_add_one_ne_zero m).isUnit
  rcases prime.dvd_or_dvd lower with factor | last
  · rw [unit.dvd_mul_left] at factor
    have separable := prime.irreducible.separable
    exact absurd (separable.isUnit_of_dvd' dvd_rfl factor) prime.not_isUnit
  · exact last

/-- The common divisor of a polynomial and its derivative leaves a divisor of the radical. -/
theorem dvd_radical {f c w : ℚ[X]} (nonzero : f ≠ 0) (product : w * c = f)
    (common : ∀ g, g ∣ c ↔ g ∣ f ∧ g ∣ Polynomial.derivative f) : w ∣ UniqueFactorizationMonoid.radical f := by
  classical
  have most : EuclideanDomain.divRadical f ∣ c :=
    (common _).mpr ⟨EuclideanDomain.divRadical_dvd_self f, divRadical_dvd_derivative f⟩
  obtain ⟨k, same⟩ := most
  refine ⟨k, mul_left_cancel₀ (EuclideanDomain.divRadical_ne_zero nonzero) ?_⟩
  calc EuclideanDomain.divRadical f * UniqueFactorizationMonoid.radical f
      = w * c := by rw [EuclideanDomain.divRadical_mul_radical, product]
    _ = EuclideanDomain.divRadical f * (w * k) := by
      rw [same]
      ring

/-- Over the common divisor of a polynomial and its derivative no square is left, and every prime divisor
still is. -/
theorem covers_of_derivative {f c w : ℚ[X]} (nonzero : f ≠ 0) (product : w * c = f)
    (common : ∀ g, g ∣ c ↔ g ∣ f ∧ g ∣ Polynomial.derivative f) : Covers w c := by
  constructor
  case squarefree =>
    exact UniqueFactorizationMonoid.squarefree_radical.squarefree_of_dvd (dvd_radical nonzero product common)
  case nonzero => exact right_ne_zero_of_mul (product ▸ nonzero)
  case prime =>
    intro r prime divides
    by_contra absent
    -- All of the power of the prime in `f` would be in the derivative, which has one factor less.
    obtain ⟨inside, derived⟩ := (common c).mp dvd_rfl
    obtain ⟨g, power, undivided⟩ :=
      (FiniteMultiplicity.of_prime_left prime nonzero).exists_eq_pow_mul_and_not_dvd
    have positive : multiplicity r f ≠ 0 := multiplicity_ne_zero.mpr (divides.trans inside)
    obtain ⟨m, count⟩ := Nat.exists_eq_succ_of_ne_zero positive
    rw [count, Nat.succ_eq_add_one] at power
    have all : r ^ (m + 1) ∣ c := by
      have whole : r ^ (m + 1) ∣ w * c := by
        rw [product, power]
        exact dvd_mul_right _ _
      exact prime.pow_dvd_of_dvd_mul_left _ absent whole
    exact undivided (dvd_of_pow_dvd_derivative prime (power ▸ all.trans derived))

/-- A step of the splitting: what both have in common stays covered by its part of the other. -/
theorem Covers.step {w c y z k : ℚ[X]} (covers : Covers w c) (common : ∀ g, g ∣ y ↔ g ∣ w ∧ g ∣ c)
    (first : z * y = w) (second : k * y = c) : Covers y k ∧ IsCoprime z y := by
  obtain ⟨squarefree, nonzero, prime⟩ := covers
  have inside : y ∣ w := ((common y).mp dvd_rfl).1
  refine ⟨⟨squarefree.squarefree_of_dvd inside, ?_, ?_⟩, ?_⟩
  · rintro rfl
    rw [zero_mul] at second
    exact nonzero second.symm
  · intro r primeR divides
    have below : r ∣ c := second ▸ divides.mul_right y
    exact (common r).mpr ⟨prime r primeR below, below⟩
  · rw [← first] at squarefree
    exact (squarefree_mul_iff.mp squarefree).1.isCoprime

theorem Covers.isUnit {w c : ℚ[X]} (covers : Covers w c) (unit : IsUnit w) : IsUnit c := by
  by_contra proper
  obtain ⟨r, irreducible, divides⟩ := WfDvdMonoid.exists_irreducible_factor proper covers.nonzero
  have prime := irreducible.prime
  exact prime.not_isUnit (isUnit_of_dvd_unit (covers.prime r prime divides) unit)

theorem isUnit_of_natDegree {f : ℚ[X]} (nonzero : f ≠ 0) (low : f.natDegree = 0) : IsUnit f := by
  rw [isUnit_iff_degree_eq_zero, degree_eq_natDegree nonzero, low]
  rfl

theorem Covers.isUnit_mul {w c : ℚ[X]} (covers : Covers w c) (low : w.natDegree = 0) (n : ℕ) :
    IsUnit (w ^ n * c) := by
  have unit := isUnit_of_natDegree covers.squarefree.ne_zero low
  exact (unit.pow n).mul (covers.isUnit unit)

theorem Covers.isCoprime {w c z : ℚ[X]} (covers : Covers w c) (apart : IsCoprime z w) : IsCoprime z c := by
  refine isCoprime_of_prime_dvd (fun both => covers.nonzero both.2) ?_
  intro r prime inside divides
  exact prime.not_isUnit (apart.isUnit_of_dvd' inside (covers.prime r prime divides))

/-- What a step of the splitting leaves of a polynomial and of what it covers: their common divisor and
the quotients by it. -/
structure Parted (w c : Poly) : Prop where
  first : (quot w (gcd w c)).toPolynomial * (gcd w c).toPolynomial = w.toPolynomial
  second : (quot c (gcd w c)).toPolynomial * (gcd w c).toPolynomial = c.toPolynomial
  covers : Covers (gcd w c).toPolynomial (quot c (gcd w c)).toPolynomial
  apart : IsCoprime (quot w (gcd w c)).toPolynomial (gcd w c).toPolynomial

theorem Covers.parted {w c : Poly} (covers : Covers w.toPolynomial c.toPolynomial) : Parted w c := by
  have common (g : ℚ[X]) := @dvd_gcd w c g
  obtain ⟨insideW, insideC⟩ := (common _).mp dvd_rfl
  have nonzero : (gcd w c).toPolynomial ≠ 0 := ne_zero_of_dvd_ne_zero covers.squarefree.ne_zero insideW
  have first := quot_mul nonzero insideW
  have second := quot_mul nonzero insideC
  obtain ⟨coversNext, apart⟩ := covers.step common first second
  exact ⟨first, second, coversNext, apart⟩

theorem Covers.quot_ne_zero {w c : Poly} (covers : Covers w.toPolynomial c.toPolynomial) :
    (quot w (gcd w c)).toPolynomial ≠ 0 :=
  left_ne_zero_of_mul (covers.parted.first ▸ covers.squarefree.ne_zero)

/-- Splitting off one multiplicity after the other, until a constant is left: the factors of one
multiplicity are those that are not common to both polynomials. -/
inductive SplitsOff : ℕ → Poly → Poly → Factors → Prop
  | done {m : ℕ} {w c : Poly} (low : w.degree < 1) : SplitsOff m w c []
  | part {m : ℕ} {w c : Poly} {rest : Factors} (high : ¬ w.degree < 1)
    (proper : 0 < (quot w (gcd w c)).degree)
    (later : SplitsOff (m + 1) (gcd w c) (quot c (gcd w c)) rest) :
    SplitsOff m w c (((quot w (gcd w c)).monic, m) :: rest)
  | none {m : ℕ} {w c : Poly} {rest : Factors} (high : ¬ w.degree < 1)
    (constant : ¬ 0 < (quot w (gcd w c)).degree)
    (later : SplitsOff (m + 1) (gcd w c) (quot c (gcd w c)) rest) : SplitsOff m w c rest

/-- The splitting comes to an end: as long as a common divisor is left, the degree of the second
polynomial falls, though that of the first one may stay. -/
theorem splitsOff_squareFreeFrom {n m : ℕ} {w c : Poly} (covers : Covers w.toPolynomial c.toPolynomial)
    (enough : w.toPolynomial.natDegree = 0 ∨ c.toPolynomial.natDegree + 2 ≤ n) :
    SplitsOff m w c (squareFreeFrom n m w c) := by
  induction n generalizing m w c with
  | zero =>
    refine .done ?_
    rw [degree_eq covers.squarefree.ne_zero]
    omega
  | succ n ih =>
    rw [squareFreeFrom]
    split
    next low => exact .done low
    next high =>
      have parted := covers.parted
      have room : (gcd w c).toPolynomial.natDegree = 0 ∨
          (quot c (gcd w c)).toPolynomial.natDegree + 2 ≤ n := by
        have degrees := congrArg natDegree parted.second
        rw [natDegree_mul parted.covers.nonzero parted.covers.squarefree.ne_zero] at degrees
        rw [degree_eq covers.squarefree.ne_zero] at high
        omega
      have later := ih (m := m + 1) parted.covers room
      dsimp only
      split
      next proper => exact .part high proper later
      next constant => exact .none high constant later

/-- What is split off at a multiplicity has no common divisor with what comes later. -/
theorem SplitsOff.split {m : ℕ} {w c : Poly} {factors : Factors} (run : SplitsOff m w c factors)
    (positive : 0 < m) (covers : Covers w.toPolynomial c.toPolynomial) :
    factors.Split (w.toPolynomial ^ m * c.toPolynomial) := by
  have step {m : ℕ} {w c : Poly} (covers : Covers w.toPolynomial c.toPolynomial) :
      w.toPolynomial ^ m * c.toPolynomial = (quot w (gcd w c)).toPolynomial ^ m *
        ((gcd w c).toPolynomial ^ (m + 1) * (quot c (gcd w c)).toPolynomial) := by
    rw [← covers.parted.first, ← covers.parted.second]
    ring
  induction run with
  | @done m w c low =>
    rw [degree_eq covers.squarefree.ne_zero] at low
    exact .nil (covers.isUnit_mul (by omega) m)
  | @part m w c rest _ proper _ ih =>
    obtain ⟨-, -, coversNext, apart⟩ := covers.parted
    have nonzero := covers.quot_ne_zero
    have same := associated_monic (quot w (gcd w c))
    rw [degree_eq nonzero, Nat.cast_pos] at proper
    have part : Factors.Split [((quot w (gcd w c)).monic, m)] ((quot w (gcd w c)).toPolynomial ^ m) := by
      refine .single ?_ positive same.pow_pow
      rwa [natDegree_eq_of_degree_eq (degree_eq_degree_of_associated same)]
    have away : IsCoprime ((quot w (gcd w c)).toPolynomial ^ m)
        ((gcd w c).toPolynomial ^ (m + 1) * (quot c (gcd w c)).toPolynomial) :=
      (apart.pow_right.mul_right (coversNext.isCoprime apart)).pow_left
    rw [step covers]
    exact part.append (ih (Nat.succ_pos m) coversNext) away
  | @none m w c rest _ constant _ ih =>
    obtain ⟨-, -, coversNext, -⟩ := covers.parted
    have nonzero := covers.quot_ne_zero
    rw [degree_eq nonzero, Nat.cast_pos, Nat.pos_iff_ne_zero, not_not] at constant
    have unit := (isUnit_of_natDegree nonzero constant).pow m
    rw [step covers]
    exact (ih (Nat.succ_pos m) coversNext).congr (associated_unit_mul_left _ _ unit).symm

/-- The common divisor of a monic polynomial and its derivative, in which every prime factor occurs once
less. -/
def repeated (p : Poly) : Poly := gcd p.monic p.monic.derivative

theorem dvd_repeated {f : ℚ[X]} : f ∣ p.repeated.toPolynomial ↔
    f ∣ p.monic.toPolynomial ∧ f ∣ Polynomial.derivative p.monic.toPolynomial := by
  rw [repeated, dvd_gcd, toPolynomial_derivative]

theorem quot_mul_repeated (nonzero : p.toPolynomial ≠ 0) :
    (quot p.monic p.repeated).toPolynomial * p.repeated.toPolynomial = p.monic.toPolynomial := by
  have inside : p.repeated.toPolynomial ∣ p.monic.toPolynomial := (dvd_repeated.mp dvd_rfl).1
  have nonzeroMonic := (associated_monic p).symm.ne_zero_iff.mp nonzero
  exact quot_mul (ne_zero_of_dvd_ne_zero nonzeroMonic inside) inside

theorem covers_repeated (nonzero : p.toPolynomial ≠ 0) :
    Covers (quot p.monic p.repeated).toPolynomial p.repeated.toPolynomial :=
  covers_of_derivative ((associated_monic p).symm.ne_zero_iff.mp nonzero) (quot_mul_repeated nonzero)
    fun _ => dvd_repeated

/-- The square-free parts of a polynomial that is no constant are split off to the last one. -/
theorem splitsOff_squareFree (high : ¬ p.degree < 1) :
    SplitsOff 1 (quot p.monic p.repeated) p.repeated p.squareFree := by
  have nonzero := toPolynomial_ne_zero_of_degree high
  have covers := covers_repeated nonzero
  rw [squareFree, if_neg high]
  refine splitsOff_squareFreeFrom covers ?_
  have degrees := degree_eq_degree_of_associated (associated_monic p)
  have parts := congrArg natDegree (quot_mul_repeated nonzero)
  rw [natDegree_mul covers.squarefree.ne_zero covers.nonzero, natDegree_eq_of_degree_eq degrees,
    natDegree_toPolynomial p] at parts
  rw [degree_eq nonzero, natDegree_toPolynomial] at high
  omega

/-- The parts have no common divisors, and their product is the polynomial up to a constant. -/
theorem SplitsOff.split_of_repeated {factors : Factors} (nonzero : p.toPolynomial ≠ 0)
    (run : SplitsOff 1 (quot p.monic p.repeated) p.repeated factors) : factors.Split p.toPolynomial := by
  have split := run.split one_pos (covers_repeated nonzero)
  rw [pow_one, quot_mul_repeated nonzero] at split
  exact split.congr (associated_monic p)

theorem toPolynomial_linear_num (r : ℚ) :
    (linear r.num r.den).toPolynomial = C (r.den : ℚ) * (X - C r) := by
  have product : C (r.den : ℚ) * C r = C (r.num : ℚ) := by
    rw [← C_mul, mul_comm, Rat.mul_den_eq_num]
  rw [linear, toPolynomial_ofList, mul_sub, product]
  simp only [ofCoefficients, mul_zero, add_zero, map_neg]
  ring

theorem associated_linear (r : ℚ) : Associated (linear r.num r.den).toPolynomial (X - C r) := by
  rw [toPolynomial_linear_num]
  have nonzero : (r.den : ℚ) ≠ 0 := Nat.cast_ne_zero.mpr r.den_nz
  exact associated_unit_mul_left _ _ (isUnit_C.mpr nonzero.isUnit)

/-- Dividing out the linear factors of some numbers, roots or not, one after the other. -/
inductive Deflates : List ℚ → Poly → Factors → Poly → Prop
  | done {p : Poly} : Deflates [] p [] p
  | next {root : ℚ} {roots : List ℚ} {p q rest : Poly} {factors : Factors} {n : ℕ}
    (run : DividesOut (linear root.num root.den) p q n) (later : Deflates roots q factors rest) :
    Deflates (root :: roots) p (if n = 0 then factors else (linear root.num root.den, n) :: factors) rest

theorem irreducible_linear (r : ℚ) : Irreducible (linear r.num r.den).toPolynomial :=
  (associated_linear r).symm.irreducible (irreducible_X_sub_C r)

theorem deflates_deflate (roots : List ℚ) (nonzero : p.toPolynomial ≠ 0) :
    Deflates roots p (deflate roots p).1 (deflate roots p).2 := by
  induction roots generalizing p with
  | nil => exact .done
  | cons root roots ih =>
    have degree : 0 < (linear root.num root.den).toPolynomial.degree :=
      degree_pos_of_irreducible (irreducible_linear root)
    have fuel : p.toPolynomial.natDegree < p.coefficients.length := by
      have some : p.coefficients ≠ [] := fun none => nonzero ((toPolynomial_eq_zero p).mpr none)
      have positive := List.length_pos_iff.mpr some
      rw [natDegree_toPolynomial]
      omega
    have run := dividesOut_divideOut degree _ nonzero fuel
    have product := (run.eq (irreducible_linear root).ne_zero).1
    exact .next run (ih (left_ne_zero_of_mul (product ▸ nonzero)))

/-- What was divided out has no common divisor with what is left. -/
theorem Deflates.split {roots : List ℚ} {rest : Poly} {factors : Factors}
    (run : Deflates roots p factors rest) :
    ∃ P, factors.Split P ∧ IsCoprime P rest.toPolynomial ∧ P * rest.toPolynomial = p.toPolynomial := by
  induction run with
  | done => exact ⟨1, .nil isUnit_one, isCoprime_one_left, one_mul _⟩
  | @next root roots p q rest factors n run _ ih =>
    have prime := irreducible_linear root
    obtain ⟨product, undivided⟩ := run.eq prime.ne_zero
    obtain ⟨P, split, apart, whole⟩ := ih
    set factor := linear root.num root.den
    have away : IsCoprime (factor.toPolynomial ^ n) (P * rest.toPolynomial) := by
      rw [whole]
      exact (prime.coprime_iff_not_dvd.mpr undivided).pow_left
    obtain ⟨awayP, awayRest⟩ := IsCoprime.mul_right_iff.mp away
    refine ⟨factor.toPolynomial ^ n * P, ?_, awayRest.mul_left apart, ?_⟩
    · by_cases none : n = 0
      · rw [if_pos none, none, pow_zero, one_mul]
        exact split
      · rw [if_neg none]
        have single : Factors.Split [(factor, n)] (factor.toPolynomial ^ n) :=
          .single prime.natDegree_pos (Nat.pos_of_ne_zero none) (.refl _)
        exact single.append split awayP
    · rw [mul_assoc, whole, mul_comm]
      exact product.symm

/-- A polynomial is taken apart: the linear factors of the roots that were found are divided out of its
primitive part, and what is left, unless it is a constant, is split by multiplicities. -/
inductive TakesApart (limit : ℤ) (p : Poly) : Factors → Prop
  | deflated {linears : Factors} {rest : Poly}
    (run : Deflates (p.primitive.2.rationalRoots limit) p.primitive.2 linears rest)
    (low : ¬ 0 < rest.degree) : TakesApart limit p linears
  | parts {linears parts : Factors} {rest : Poly}
    (run : Deflates (p.primitive.2.rationalRoots limit) p.primitive.2 linears rest)
    (high : 0 < rest.degree) (splits : SplitsOff 1 (quot rest.monic rest.repeated) rest.repeated parts) :
    TakesApart limit p (linears ++ parts.map fun f => (f.1.primitive.2, f.2))

/-- The zero polynomial has no roots to divide out. -/
theorem deflates_primitive (limit : ℤ) (p : Poly) :
    Deflates (p.primitive.2.rationalRoots limit) p.primitive.2
      (deflate (p.primitive.2.rationalRoots limit) p.primitive.2).1
      (deflate (p.primitive.2.rationalRoots limit) p.primitive.2).2 := by
  by_cases zero : p.primitive.2.toPolynomial = 0
  · have none : p.primitive.2.rationalRoots limit = [] := by
      rw [rationalRoots, if_pos]
      rw [degree, (toPolynomial_eq_zero _).mp zero]
      decide
    rw [none]
    exact .done
  · exact deflates_deflate _ zero

theorem takesApart_factorization (limit : ℤ) (p : Poly) : TakesApart limit p (p.factorization limit).2 := by
  have run := deflates_primitive limit p
  rw [factorization]
  dsimp only
  split
  next high => exact .parts run high (splitsOff_squareFree (not_lt.mpr high))
  next low =>
    rw [List.append_nil]
    exact .deflated run low

/-- The factors have no common divisors, and their product is the polynomial up to a constant, whether or
not the search for rational roots was skipped. -/
theorem TakesApart.split {limit : ℤ} {factors : Factors} (run : TakesApart limit p factors)
    (nonzero : p.toPolynomial ≠ 0) : factors.Split p.toPolynomial := by
  have same := associated_primitive nonzero
  have nonzeroPrimitive := same.ne_zero_iff.mpr nonzero
  cases run with
  | @deflated _ rest deflates low =>
    obtain ⟨P, linears, -, whole⟩ := deflates.split
    have nonzeroRest : rest.toPolynomial ≠ 0 := right_ne_zero_of_mul (whole ▸ nonzeroPrimitive)
    rw [degree_eq nonzeroRest] at low
    have unit := isUnit_of_natDegree nonzeroRest (by omega)
    refine linears.congr (Associated.trans ?_ same)
    rw [← whole]
    exact (associated_mul_unit_left P _ unit).symm
  | @parts _ parts rest deflates _ splits =>
    obtain ⟨P, linears, apart, whole⟩ := deflates.split
    have nonzeroRest : rest.toPolynomial ≠ 0 := right_ne_zero_of_mul (whole ▸ nonzeroPrimitive)
    have split := splits.split_of_repeated nonzeroRest
    have primitive := @Factors.Split.map _ _ split (fun q => q.primitive.2) fun f member =>
      associated_primitive (split.ne_zero f member)
    have all := linears.append primitive apart
    rw [whole] at all
    exact all.congr same

theorem factorization_split (limit : ℤ) (nonzero : p.toPolynomial ≠ 0) :
    (p.factorization limit).2.Split p.toPolynomial := (takesApart_factorization limit p).split nonzero

theorem isPrimitive_linear (r : ℚ) : (linear r.num r.den).IsPrimitive := by
  have entry (n : ℕ) : (linear r.num r.den).coeff n = [-(r.num : ℚ), (r.den : ℚ)].getD n 0 := by
    rw [← coeff_toPolynomial, linear, toPolynomial_ofList, coeff_ofCoefficients]
  constructor
  · intro n
    rw [entry]
    rcases n with _ | _ | n
    · simp
    · simp
    · rfl
  · intro d common
    have constant := common 0
    have lead := common 1
    rw [entry] at constant lead
    refine Nat.dvd_one.mp (r.reduced ▸ Nat.dvd_gcd ?_ ?_)
    · simpa using constant
    · simpa using lead

theorem Deflates.eq_linear {roots : List ℚ} {rest : Poly} {factors : Factors} (run : Deflates roots p factors rest) :
    ∀ f ∈ factors, ∃ root : ℚ, f.1 = linear root.num root.den := by
  induction run with
  | done => simp
  | @next root _ _ _ _ _ n _ _ ih =>
    intro f member
    split at member
    · exact ih f member
    · rcases List.mem_cons.mp member with rfl | later
      · exact ⟨root, rfl⟩
      · exact ih f later

/-- A factor is the linear one of some number, or the primitive part of a divisor of what the linear
factors left. -/
theorem TakesApart.mem_cases {limit : ℤ} {factors : Factors} (run : TakesApart limit p factors) {f : Poly × ℕ}
    (member : f ∈ factors) : (∃ root : ℚ, f.1 = linear root.num root.den) ∨
      ∃ (linears : Factors) (rest g : Poly),
        Deflates (p.primitive.2.rationalRoots limit) p.primitive.2 linears rest ∧ rest.toPolynomial ≠ 0 ∧
          g.toPolynomial ∣ rest.toPolynomial ∧ f.1 = g.primitive.2 := by
  cases run with
  | deflated deflates => exact .inl (deflates.eq_linear f member)
  | @parts linears parts rest deflates high splits =>
    rcases List.mem_append.mp member with left | right
    · exact .inl (deflates.eq_linear f left)
    · obtain ⟨g, inside, rfl⟩ := List.mem_map.mp right
      have nonzero := toPolynomial_ne_zero_of_degree (not_lt.mpr high)
      exact .inr ⟨linears, rest, g.1, deflates, nonzero, (splits.split_of_repeated nonzero).dvd inside, rfl⟩

/-- The factors have integer coefficients without a common divisor. -/
theorem TakesApart.isPrimitive {limit : ℤ} {factors : Factors} (run : TakesApart limit p factors) :
    ∀ f ∈ factors, f.1.IsPrimitive := by
  intro f member
  rcases run.mem_cases member with ⟨root, same⟩ | ⟨_, rest, g, -, nonzero, divides, same⟩
  · rw [same]
    exact isPrimitive_linear root
  · rw [same]
    exact (primitive_eq (ne_zero_of_dvd_ne_zero nonzero divides)).2.2

end ExactAlgebra.Poly
